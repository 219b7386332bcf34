import Mcap.Journal
import Mcap.WriterRuns

/-! # What the records of a journal define and count

A `Ledger` is what a scan of records gathers: the schemas and channels defined so far, the
messages of each channel and their time bounds.  A writer keeps the same in its registries
and counters (`Writer.ledger`).  `Allows` says which record may come next: no id is defined
twice, a channel comes after its schema, and a message after its channel.

`Advance` is a run of the writer that keeps the two in step: the records it adds to the
journal are allowed, and they change the ledger of the writer as a scan of them does.
-/
namespace Mcap

/-! ## Ledgers -/

/-- What a scan of records gathers. -/
structure Ledger where
  schemas : UInt16 → Option SchemaContent
  channels : UInt16 → Option ChannelContent
  bounds : Option (UInt64 × UInt64)
  counts : BTreeMap UInt16 UInt64

namespace Ledger

/-- Before the first record. -/
def empty : Ledger := ⟨fun _ => none, fun _ => none, none, ∅⟩

/-- One more record. -/
def step (l : Ledger) : Record → Ledger
  | .schema header data =>
      { l with
        schemas := Function.update l.schemas header.id
          (some { name := header.name, encoding := header.encoding, data }) }
  | .channel channel =>
      { l with
        channels := Function.update l.channels channel.id
          (some
            { topic := channel.topic
              schemaId := channel.schemaId
              messageEncoding := channel.messageEncoding
              metadata := channel.metadata }) }
  | .message header _ =>
      { l with
        bounds := some (extendBounds l.bounds header.logTime)
        counts := l.counts.insert header.channelId (l.counts.getD header.channelId 0 + 1) }
  | _ => l

/-- The record may come next.  A private record has an opcode of its own, and no other
records are for the data section. -/
def Allows (l : Ledger) : Record → Prop
  | .schema header _ => l.schemas header.id = none
  | .channel channel => l.channels channel.id = none ∧
      (channel.schemaId = 0 ∨ (l.schemas channel.schemaId).isSome)
  | .message header _ => (l.channels header.channelId).isSome
  | .header _ | .attachment .. | .metadata _ => True
  | .unknown opcode _ => 0x80 ≤ opcode
  | _ => False

/-- The ledger after more records. -/
def after (l : Ledger) (records : List Record) : Ledger := records.foldl step l

/-- The records may come next, one after the other. -/
def AllowsAll : Ledger → List Record → Prop
  | _, [] => True
  | l, r :: rs => l.Allows r ∧ AllowsAll (l.step r) rs

theorem after_append (l : Ledger) (rs rs' : List Record) :
    l.after (rs ++ rs') = (l.after rs).after rs' := List.foldl_append

variable {l : Ledger} {rs : List Record} {id : UInt16}

theorem allowsAll_append {rs' : List Record} :
    l.AllowsAll (rs ++ rs') ↔ l.AllowsAll rs ∧ (l.after rs).AllowsAll rs' := by
  induction rs generalizing l with
  | nil => simp [AllowsAll, after]
  | cons r rs ih =>
    rw [List.cons_append, AllowsAll, AllowsAll, ih, and_assoc]
    rfl

theorem allowsAll_singleton {r : Record} : l.AllowsAll [r] ↔ l.Allows r := by
  simp [AllowsAll]

theorem schemas_step {r : Record} (h : l.Allows r) {content : SchemaContent}
    (hid : l.schemas id = some content) :
    (l.step r).schemas id = some content := by
  cases r with
  | schema header data =>
    have hne : id ≠ header.id := by
      rintro rfl
      rw [h] at hid
      cases hid
    rw [← hid]
    exact Function.update_of_ne hne _ _
  | _ => exact hid

theorem channels_step {r : Record} (h : l.Allows r) {content : ChannelContent}
    (hid : l.channels id = some content) :
    (l.step r).channels id = some content := by
  cases r with
  | channel channel =>
    have hne : id ≠ channel.id := by
      rintro rfl
      rw [h.1] at hid
      cases hid
    rw [← hid]
    exact Function.update_of_ne hne _ _
  | _ => exact hid

theorem schemas_after (h : l.AllowsAll rs) {content : SchemaContent}
    (hid : l.schemas id = some content) :
    (l.after rs).schemas id = some content := by
  induction rs generalizing l with
  | nil => exact hid
  | cons r rs ih => exact ih h.2 (schemas_step h.1 hid)

theorem channels_after (h : l.AllowsAll rs) {content : ChannelContent}
    (hid : l.channels id = some content) :
    (l.after rs).channels id = some content := by
  induction rs generalizing l with
  | nil => exact hid
  | cons r rs ih => exact ih h.2 (channels_step h.1 hid)

end Ledger

/-! ## The ledger of a writer -/

section
variable {C : Type} [DecidableEq C]

/-- The content an id is registered for. -/
def contentOf (canonical : BiMap C UInt16) (ids : BTreeMap UInt16 UInt16) (id : UInt16) : Option C :=
  ids[id]?.bind canonical.getByRight

variable {canonical canonical' : BiMap C UInt16} {ids : BTreeMap UInt16 UInt16} {next id c : UInt16}
  {content : C}

omit [DecidableEq C] in
theorem contentOf_eq_none (hid : ids[id]? = none) : contentOf canonical ids id = none := by
  rw [contentOf, hid, Option.bind_none]

theorem IdTable.isSome_contentOf (h : IdTable canonical ids next) (hid : ids.contains id = true) :
    (contentOf canonical ids id).isSome := by
  obtain ⟨c, hc⟩ := (BTreeMap.contains_iff _ _).mp hid
  obtain ⟨content, hcont⟩ := h.content hc
  rw [contentOf, hc, Option.bind_some, BiMap.getByRight_eq_some_iff.mpr hcont]
  rfl

/-- The id is free, or registered for this content: by the tables, and by what it is
registered for. -/
theorem IdTable.accepts_iff (h : IdTable canonical ids next) :
    (ids[id]? = none ∨ ∃ c, ids[id]? = some c ∧ canonical.getByLeft content = some c) ↔
      contentOf canonical ids id = none ∨ contentOf canonical ids id = some content := by
  constructor
  · rintro (hnone | ⟨c, hid, hc⟩)
    · exact .inl (contentOf_eq_none hnone)
    · refine .inr ?_
      rw [contentOf, hid, Option.bind_some, BiMap.getByRight_eq_some_iff.mpr hc]
  · intro hl
    cases hid : ids[id]? with
    | none => exact .inl rfl
    | some c =>
      obtain ⟨content', hcont⟩ := h.content hid
      have hknown : contentOf canonical ids id = some content' := by
        rw [contentOf, hid, Option.bind_some, BiMap.getByRight_eq_some_iff.mpr hcont]
      rcases hl with hnone | hsome
      · rw [hknown] at hnone
        cases hnone
      · rw [hknown] at hsome
        cases hsome
        exact .inr ⟨c, rfl, hcont⟩

theorem contentOf_insert_known (hc : canonical.getByLeft content = some c) :
    contentOf canonical (ids.insert id c) =
      Function.update (contentOf canonical ids) id (some content) := by
  funext id'
  by_cases he : id' = id
  · subst he
    rw [Function.update_self, contentOf, BTreeMap.getElem?_insert_self, Option.bind_some,
      BiMap.getByRight_eq_some_iff.mpr hc]
  · rw [Function.update_of_ne he, contentOf, contentOf, BTreeMap.getElem?_insert_ne _ (Ne.symm he)]

theorem IdTable.contentOf_insert_new (h : IdTable canonical ids next) (hid : ids[id]? = none)
    (hent : canonical'.entries = canonical.entries ++ [(content, id)]) :
    contentOf canonical' (ids.insert id id) =
      Function.update (contentOf canonical ids) id (some content) := by
  funext id'
  by_cases he : id' = id
  · subst he
    rw [Function.update_self, contentOf, BTreeMap.getElem?_insert_self, Option.bind_some]
    exact (BiMap.getByRight_insert hent).mpr (.inr ⟨rfl, rfl⟩)
  · rw [Function.update_of_ne he, contentOf, contentOf, BTreeMap.getElem?_insert_ne _ (Ne.symm he)]
    cases hc : ids[id']? with
    | none => rfl
    | some c =>
      obtain ⟨content', hcont⟩ := h.content hc
      rw [Option.bind_some, Option.bind_some, BiMap.getByRight_eq_some_iff.mpr hcont]
      exact (BiMap.getByRight_insert hent).mpr (.inl (BiMap.getByRight_eq_some_iff.mpr hcont))

end

namespace Writer
variable {σ : Type}

/-- What the writer knows of the schemas, channels and messages it has written. -/
def ledger (w : Writer σ Stream) : Ledger where
  schemas := contentOf w.canonicalSchemas w.allSchemaIds
  channels := contentOf w.canonicalChannels w.allChannelIds
  bounds := w.messageBounds
  counts := w.channelMessageCounts

theorem ledger_of_core {w w' : Writer σ Stream} (h : w'.core = w.core) : w'.ledger = w.ledger := by
  have hl := congrArg ledger h
  exact hl

end Writer

/-! ## Runs that keep the ledger -/

/-- The call panics, or the encoder fails, or `Q` holds of the result and the state. -/
def Cleanly {α S : Type} (Q : Res McapError α → S → Prop) : Res McapError α × S → Prop
  | (.ok a, s) => Q (.ok a) s
  | (.err e, s) => IsIo e ∨ Q (.err e) s
  | (.panic, _) => True

section
variable {α β S : Type} {Q : Res McapError α → S → Prop}

theorem Cleanly.bind {Q' : Res McapError β → S → Prop} {x : Exec S McapError α}
    {f : α → Exec S McapError β} {s : S} (hx : Cleanly Q (x s))
    (hf : ∀ a s', Q (.ok a) s' → Cleanly Q' (f a s')) (herr : ∀ e s', Q (.err e) s' → Q' (.err e) s') :
    Cleanly Q' ((x >>= f) s) := by
  rw [Exec.bind_run]
  rcases h : x s with ⟨a | e | _, s'⟩ <;> rw [h] at hx
  · exact hf a s' hx
  · exact hx.imp id (herr e s')
  · trivial

theorem Cleanly.of_okOrIo {σ : Type} [Encoders σ] {Q : Res McapError α → Writer σ Stream → Prop}
    {P : α → Writer σ Stream → Prop} {x : Res McapError α × Writer σ Stream} (h : OkOrIo P x)
    (hP : ∀ a s, P a s → Q (.ok a) s) : Cleanly Q x := by
  rcases x with ⟨a | e | _, s⟩
  · exact hP a s h
  · exact .inl h.1
  · trivial

theorem Cleanly.mono {Q' : Res McapError α → S → Prop} {x : Res McapError α × S} (h : Cleanly Q x)
    (hQ : ∀ r s, Q r s → Q' r s) : Cleanly Q' x := by
  rcases x with ⟨a | e | _, s⟩
  · exact hQ _ s h
  · exact h.imp id (hQ _ s)
  · trivial

end

section
variable {σ : Type} [Encoders σ]

/-- An attachment with this header is of the kind `K`, whatever its data is. -/
def AttachmentHeader.Keeps (K : Record → Prop) (o : WriteOptions) (header : AttachmentHeader) :
    Prop := ∀ data : Bytes, data.length < 2 ^ 64 → K (attachmentRecord o header data)

/-- An attachment in progress will be of the kind `K`. -/
def Journal.Pending (K : Record → Prop) (o : WriteOptions) (j : Journal) : Prop :=
  ∀ header length data, j.tail = .attachment header length data → header.Keeps K o

/-- **The writer has gone on, and its ledger with it.**  The records it has added are of the
kind `K`. -/
structure Advance (K : Record → Prop) (w : Writer σ Stream) (j : Journal) (records : List Record)
    (w' : Writer σ Stream) (j' : Journal) : Prop where
  shows_ : Shows w' j'
  options : w'.options = w.options
  flat : j'.flat = j.flat ++ records
  ledger : w'.ledger = w.ledger.after records
  allowed : w.ledger.AllowsAll records
  sound : w'.Sound
  kept : ∀ r ∈ records, K r
  pending : j'.Pending K w'.options

variable {K : Record → Prop} {w w' : Writer σ Stream} {j j' : Journal} {records : List Record}

theorem Advance.refl (h : Shows w j) (hs : w.Sound) (hp : j.Pending K w.options) :
    Advance K w j [] w j :=
  ⟨h, rfl, (List.append_nil _).symm, rfl, trivial, hs, List.forall_mem_nil _, hp⟩

theorem Advance.trans {w'' : Writer σ Stream} {j'' : Journal} {records' : List Record}
    (h : Advance K w j records w' j') (h' : Advance K w' j' records' w'' j'') :
    Advance K w j (records ++ records') w'' j'' where
  shows_ := h'.shows_
  options := h'.options.trans h.options
  flat := by rw [h'.flat, h.flat, List.append_assoc]
  ledger := by rw [h'.ledger, h.ledger, Ledger.after_append]
  allowed := Ledger.allowsAll_append.mpr ⟨h.allowed, by rw [← h.ledger]; exact h'.allowed⟩
  sound := h'.sound
  kept := List.forall_mem_append.mpr ⟨h.kept, h'.kept⟩
  pending := h'.pending

/-! ## Registering and counting -/

/-- No attachment is in progress. -/
def Journal.Free (j : Journal) : Prop := ∀ header length data, j.tail ≠ .attachment header length data

theorem Journal.Free.open_or_lost (h : j.Free) : j.Open ∨ j.tail = .lost := by
  obtain ⟨es, tail⟩ := j
  cases tail with
  | raw => exact .inl (.inl rfl)
  | chunk records => exact .inl (.inr ⟨records, rfl⟩)
  | attachment header length data => exact absurd rfl (h header length data)
  | lost => exact .inr rfl

theorem Journal.Open.free (h : j.Open) : j.Free := by
  rcases h with h | ⟨records, h⟩ <;> intro header length data hne <;> rw [h] at hne <;> cases hne

theorem Journal.Free.pending (h : j.Free) (o : WriteOptions) : j.Pending K o :=
  fun header length data htail => absurd htail (h header length data)

theorem Shows.not_usable (h : Shows w j) (hlost : j.tail = .lost) : ¬ w.Usable := by
  obtain ⟨es, tail⟩ := j
  subst hlost
  have hm := h.mode
  generalize hslot : w.writer = slot, w.dropped = dropped at hm
  cases hm with
  | lost hc => exact fun hu => hu.1 hslot

theorem Shows.placed (h : Shows w j) : w.Placed := by
  intro c hc
  have hm := h.mode
  generalize hslot : w.writer = slot, w.dropped = dropped at hm
  cases hm with
  | chunk hran =>
    rw [hslot] at hc
    cases hc
    show _ + (ChunkWriter.dummy w.options).length = _
    rw [ChunkWriter.dummy, List.length_append, ChunkWriter.length_opAndLen,
      ChunkHeader.length_bytes, ← Nat.add_assoc]
    rfl
  | raw _ | attachment _ _ | lost _ =>
    rw [hslot] at hc
    cases hc

theorem Shows.congr (h : Shows w j) (hw : w'.writer = w.writer) (hd : w'.dropped = w.dropped)
    (hf : w'.finishedSummary = w.finishedSummary) (ho : w'.options = w.options)
    (hb : Booked w' j.entries) : Shows w' j where
  notFinished := by rw [hf, h.notFinished]
  mode := by
    rw [hw, hd, ho]
    exact h.mode
  packed := by
    rw [ho]
    exact h.packed
  booked := hb

theorem Shows.withSchema (h : Shows w j) (canonicalSchemas : BiMap SchemaContent UInt16)
    (id next : UInt16) : Shows (w.withSchema canonicalSchemas id next) j :=
  h.congr rfl rfl rfl rfl (h.booked.of_fields rfl rfl rfl rfl rfl rfl)

theorem Shows.withSchemaIds (h : Shows w j) (ids : BTreeMap UInt16 UInt16) :
    Shows { w with allSchemaIds := ids } j :=
  h.congr rfl rfl rfl rfl (h.booked.of_fields rfl rfl rfl rfl rfl rfl)

theorem Shows.withChannelIds (h : Shows w j) (ids : BTreeMap UInt16 UInt16) :
    Shows { w with allChannelIds := ids } j :=
  h.congr rfl rfl rfl rfl (h.booked.of_fields rfl rfl rfl rfl rfl rfl)

theorem Shows.withChannel (h : Shows w j) (canonicalChannels : BiMap ChannelContent UInt16)
    (id next : UInt16) : Shows (w.withChannel canonicalChannels id next) j :=
  h.congr rfl rfl rfl rfl (h.booked.of_fields rfl rfl rfl rfl rfl rfl)

theorem Extended.advance (h : Extended w j records w' j') (hs : w.Sound)
    (hledger : w.ledger.after records = w.ledger) (hall : w.ledger.AllowsAll records)
    (hK : ∀ r ∈ records, K r) : Advance K w j records w' j' where
  shows_ := h.shows_
  options := Writer.options_of_core h.core
  flat := h.flat
  ledger := by rw [hledger, Writer.ledger_of_core h.core]
  allowed := hall
  sound := hs.of_registry (Writer.registry_of_core h.core) h.shows_.placed
  kept := hK
  pending := h.isOpen.free.pending _

/-- **A definition is registered and written**: `w₁` is the writer once it is registered. -/
theorem advance_definition {w₁ : Writer σ Stream} {r : Record} (hr : r.written = some r.frame)
    (hun : r.Unindexed) (hmsg : ∀ header data, r ≠ .message header data) (h₁ : Shows w₁ j)
    (hs₁ : w₁.Sound) (hopts : w₁.options = w.options) (hfree : j.Free)
    (hledger : w₁.ledger = w.ledger.step r) (hallow : w.ledger.Allows r) (hK : K r) :
    Cleanly (fun res w' => res = .ok () ∧ ∃ j', j'.Open ∧ Advance K w j [r] w' j')
      (Writer.writeDefinition r w₁) := by
  rcases hfree.open_or_lost with ho | hlost
  · refine .of_okOrIo (Writer.writeDefinition_shows hr hun hmsg h₁ ho) ?_
    rintro - w' ⟨j', hext⟩
    refine ⟨rfl, j', hext.isOpen, hext.shows_, (Writer.options_of_core hext.core).trans hopts,
      hext.flat, ?_, Ledger.allowsAll_singleton.mpr hallow,
      hs₁.of_registry (Writer.registry_of_core hext.core) hext.shows_.placed,
      fun r' hr' => by rw [List.mem_singleton.mp hr']; exact hK, hext.isOpen.free.pending _⟩
    rw [Writer.ledger_of_core hext.core, hledger]
    rfl
  · rw [Writer.writeDefinition_panic (h₁.not_usable hlost)]
    trivial

/-! ### Schemas and channels -/

/-- The messages among the records. -/
def messagesOf (records : List Record) : List (MessageHeader × Bytes) :=
  records.filterMap fun
    | .message header data => some (header, data)
    | _ => none

theorem messagesOf_append (rs rs' : List Record) :
    messagesOf (rs ++ rs') = messagesOf rs ++ messagesOf rs' := List.filterMap_append

/-- The writer has gone on and takes records, and no message has been written. -/
def Quietly (K : Record → Prop) (w : Writer σ Stream) (j : Journal) (w' : Writer σ Stream) : Prop :=
  ∃ records j', Advance K w j records w' j' ∧ j'.Free ∧ messagesOf records = []

theorem Quietly.refl (h : Shows w j) (hs : w.Sound) (hfree : j.Free) : Quietly K w j w :=
  ⟨[], j, .refl h hs (hfree.pending _), hfree, rfl⟩

theorem Quietly.of_counters (hfree : j.Free) (hs' : w'.Sound) (hopts : w'.options = w.options)
    (hledger : w'.ledger = w.ledger) (h' : Shows w' j) : Quietly K w j w' :=
  ⟨[], j, ⟨h', hopts, (List.append_nil _).symm, hledger, trivial, hs', List.forall_mem_nil _,
    hfree.pending _⟩, hfree, rfl⟩

namespace Writer
variable {w : Writer σ Stream} {j : Journal}

section
omit [Encoders σ]
variable {id next c : UInt16}

theorem ledger_withSchema {canonicalSchemas : BiMap SchemaContent UInt16} {content : SchemaContent}
    (hs : w.Sound) (hid : w.allSchemaIds[id]? = none)
    (hent : canonicalSchemas.entries = w.canonicalSchemas.entries ++ [(content, id)]) :
    (w.withSchema canonicalSchemas id next).ledger = w.ledger.step (content.record id) := by
  rw [ledger, withSchema, hs.schemas.contentOf_insert_new hid hent]
  rfl

theorem ledger_insertSchema {content : SchemaContent}
    (hc : w.canonicalSchemas.getByLeft content = some c) :
    ({ w with allSchemaIds := w.allSchemaIds.insert id c } : Writer σ Stream).ledger =
      w.ledger.step (content.record id) := by
  rw [ledger, contentOf_insert_known hc]
  rfl

theorem ledger_withChannel {canonicalChannels : BiMap ChannelContent UInt16}
    {content : ChannelContent} (hs : w.Sound) (hid : w.allChannelIds[id]? = none)
    (hent : canonicalChannels.entries = w.canonicalChannels.entries ++ [(content, id)]) :
    (w.withChannel canonicalChannels id next).ledger = w.ledger.step (content.record id) := by
  rw [ledger, withChannel, hs.channels.contentOf_insert_new hid hent]
  rfl

theorem ledger_insertChannel {content : ChannelContent}
    (hc : w.canonicalChannels.getByLeft content = some c) :
    ({ w with allChannelIds := w.allChannelIds.insert id c } : Writer σ Stream).ledger =
      w.ledger.step (content.record id) := by
  rw [ledger, contentOf_insert_known hc]
  rfl

end

theorem record_schema_written (content : SchemaContent) (id : UInt16) :
    (content.record id).written = some (content.record id).frame :=
  congrArg some (Record.written_eq_some rfl)

theorem record_channel_written (content : ChannelContent) (id : UInt16) :
    (content.record id).written = some (content.record id).frame :=
  congrArg some (Record.written_eq_some rfl)

/-- **A schema is registered and written** while no attachment is in progress. -/
theorem writeSchema_quietly {w₁ : Writer σ Stream} {content : SchemaContent} {id : UInt16}
    (h₁ : Shows w₁ j) (hs₁ : w₁.Sound) (hfree : j.Free)
    (hledger : w₁.ledger = w.ledger.step (content.record id)) (hopts : w₁.options = w.options)
    (hnew : w.ledger.schemas id = none) (hK : K (content.record id)) :
    Cleanly (fun res w' => res = .ok () ∧ Quietly K w j w' ∧ w'.ledger.schemas id = some content ∧
        w'.ledger.channels = w.ledger.channels)
      (writeSchema id content w₁) := by
  refine (advance_definition (record_schema_written content id) trivial
    (fun _ _ hne => by cases hne) h₁ hs₁ hopts hfree hledger hnew hK).mono ?_
  rintro res w' ⟨rfl, j', ho, hadv⟩
  refine ⟨rfl, ⟨_, j', hadv, ho.free, rfl⟩, ?_, ?_⟩
  · rw [hadv.ledger]
    exact Function.update_self ..
  · rw [hadv.ledger]
    rfl

/-- **A channel is registered and written** while no attachment is in progress. -/
theorem writeChannel_quietly {w₁ : Writer σ Stream} {content : ChannelContent} {id : UInt16}
    (h₁ : Shows w₁ j) (hs₁ : w₁.Sound) (hfree : j.Free)
    (hledger : w₁.ledger = w.ledger.step (content.record id)) (hopts : w₁.options = w.options)
    (hnew : w.ledger.channels id = none)
    (hschema : content.schemaId = 0 ∨ (w.ledger.schemas content.schemaId).isSome)
    (hK : K (content.record id)) :
    Cleanly (fun res w' => res = .ok () ∧ Quietly K w j w' ∧
        w'.ledger.channels id = some content ∧ w'.ledger.schemas = w.ledger.schemas)
      (writeChannel id content w₁) := by
  refine (advance_definition (record_channel_written content id) trivial
    (fun _ _ hne => by cases hne) h₁ hs₁ hopts hfree hledger ⟨hnew, hschema⟩ hK).mono ?_
  rintro res w' ⟨rfl, j', ho, hadv⟩
  refine ⟨rfl, ⟨_, j', hadv, ho.free, rfl⟩, ?_, ?_⟩
  · rw [hadv.ledger]
    exact Function.update_self ..
  · rw [hadv.ledger]
    rfl

/-- The ids, and the contents they are registered for, are the same. -/
def SameIds (w w' : Writer σ Stream) : Prop :=
  w'.allSchemaIds = w.allSchemaIds ∧ w'.canonicalSchemas = w.canonicalSchemas ∧
    w'.allChannelIds = w.allChannelIds ∧ w'.canonicalChannels = w.canonicalChannels

/-- **A schema is added.**  If it is not, the ids are left alone. -/
theorem addSchema_quietly (h : Shows w j) (hs : w.Sound) (hfree : j.Free) (name encoding : String)
    (data : Bytes) (hK : ∀ id, K (SchemaContent.record ⟨name, encoding, data⟩ id)) :
    Cleanly (fun res w' => Quietly K w j w' ∧ (∀ e, res = .err e → w.SameIds w'))
      (addSchema name encoding data w) := by
  refine addSchema_cases hs (fun _ _ => ⟨.refl h hs hfree, fun e hne => by cases hne⟩)
    (fun _ _ => ?_) fun canonicalSchemas id _ _ hid hent hs' => ?_
  · refine .inr ⟨.of_counters hfree ⟨hs.placed, hs.schemas.at_candidate, hs.channels⟩ rfl rfl ?_,
      fun _ _ => ⟨rfl, rfl, rfl, rfl⟩⟩
    exact h.congr rfl rfl rfl rfl (h.booked.of_fields rfl rfl rfl rfl rfl rfl)
  · refine (writeSchema_quietly (h.withSchema ..) hs' hfree (ledger_withSchema hs hid hent)
      rfl (contentOf_eq_none hid) (hK _)).bind
      (fun _ w' hq => show Cleanly _ (Res.ok _, w') from ⟨hq.2.1, fun e hne => by cases hne⟩) ?_
    intro e w' hq
    cases hq.1

/-- **A channel is added.**  If it is not, the ids are left alone. -/
theorem addChannel_quietly (h : Shows w j) (hs : w.Sound) (hfree : j.Free) (schemaId : UInt16)
    (topic messageEncoding : String) (metadata : BTreeMap String String)
    (hK : ∀ id, K (ChannelContent.record ⟨topic, schemaId, messageEncoding, metadata⟩ id)) :
    Cleanly (fun res w' => Quietly K w j w' ∧ (∀ e, res = .err e → w.SameIds w'))
      (addChannel schemaId topic messageEncoding metadata w) := by
  refine addChannel_cases hs (fun _ _ => ⟨.refl h hs hfree, fun e hne => by cases hne⟩)
    (fun _ _ => .inr ⟨.refl h hs hfree, fun _ _ => ⟨rfl, rfl, rfl, rfl⟩⟩)
    (fun _ _ => ?_) fun canonicalChannels id _ _ hknown hid hent hs' => ?_
  · refine .inr ⟨.of_counters hfree ⟨hs.placed, hs.schemas, hs.channels.at_candidate⟩ rfl rfl ?_,
      fun _ _ => ⟨rfl, rfl, rfl, rfl⟩⟩
    exact h.congr rfl rfl rfl rfl (h.booked.of_fields rfl rfl rfl rfl rfl rfl)
  · have hschema := hknown.imp_right hs.schemas.isSome_contentOf
    refine (writeChannel_quietly (h.withChannel ..) hs' hfree (ledger_withChannel hs hid hent)
      rfl (contentOf_eq_none hid) hschema (hK _)).bind
      (fun _ w' hq => show Cleanly _ (Res.ok _, w') from ⟨hq.2.1, fun e hne => by cases hne⟩) ?_
    intro e w' hq
    cases hq.1

/-- The id of the schema is new, or registered for its content. -/
def AcceptsSchema (w : Writer σ Stream) (schema : Schema) : Prop :=
  w.allSchemaIds[schema.id]? = none ∨
    ∃ id, w.allSchemaIds[schema.id]? = some id ∧
      w.canonicalSchemas.getByLeft schema.content = some id

/-- The id of the channel is new, or registered for its content. -/
def AcceptsChannel (w : Writer σ Stream) (channel : Channel) : Prop :=
  w.allChannelIds[channel.id]? = none ∨
    ∃ id, w.allChannelIds[channel.id]? = some id ∧
      w.canonicalChannels.getByLeft channel.content = some id

theorem registerSchema_quietly (h : Shows w j) (hs : w.Sound) (hfree : j.Free) (schema : Schema)
    (hK : K (schema.content.record schema.id)) :
    Cleanly (fun res w' => Quietly K w j w' ∧ (w.AcceptsSchema schema → res = .ok ()) ∧
        (res = .ok () → w'.ledger.schemas schema.id = some schema.content ∧
          w'.ledger.channels = w.ledger.channels))
      (registerSchema schema w) := by
  refine registerSchema_cases hs (fun canonicalSchemas hid hent hs' => ?_) (fun c hid hc hs' => ?_)
    trivial fun other c hid hc => ?_
  · exact (writeSchema_quietly (h.withSchema ..) hs' hfree (ledger_withSchema hs hid hent)
      rfl (contentOf_eq_none hid) hK).mono fun res w' hq =>
        ⟨hq.2.1, fun _ => hq.1, fun _ => hq.2.2⟩
  · exact (writeSchema_quietly (h.withSchemaIds _) hs' hfree (ledger_insertSchema hc)
      rfl (contentOf_eq_none hid) hK).mono fun res w' hq =>
        ⟨hq.2.1, fun _ => hq.1, fun _ => hq.2.2⟩
  · split
    · rename_i hne
      refine .inr ⟨.refl h hs hfree, fun hacc => ?_, fun hok => by cases hok⟩
      rcases hacc with hnone | ⟨id, hid', hc'⟩
      · rw [hnone] at hid
        cases hid
      · rw [hid] at hid'
        rw [hc] at hc'
        cases hid'
        cases hc'
        exact absurd rfl hne
    · rename_i heq
      obtain rfl : other = c := not_not.mp heq
      refine ⟨.refl h hs hfree, fun _ => rfl, fun _ => ⟨?_, rfl⟩⟩
      show contentOf _ _ _ = _
      rw [contentOf, hid, Option.bind_some, BiMap.getByRight_eq_some_iff.mpr hc]

theorem registerChannel_quietly (h : Shows w j) (hs : w.Sound) (hfree : j.Free) (channel : Channel)
    (hschema : channel.content.schemaId = 0 ∨
      (w.ledger.schemas channel.content.schemaId).isSome)
    (hK : K (channel.content.record channel.id)) :
    Cleanly (fun res w' => Quietly K w j w' ∧ (w.AcceptsChannel channel → res = .ok ()) ∧
        (res = .ok () → w'.ledger.channels channel.id = some channel.content ∧
          w'.ledger.schemas = w.ledger.schemas))
      (registerChannel channel w) := by
  refine registerChannel_cases hs (fun canonicalChannels hid hent hs' => ?_) (fun c hid hc hs' => ?_)
    trivial fun other c hid hc => ?_
  · exact (writeChannel_quietly (h.withChannel ..) hs' hfree (ledger_withChannel hs hid hent)
      rfl (contentOf_eq_none hid) hschema hK).mono fun res w' hq =>
        ⟨hq.2.1, fun _ => hq.1, fun _ => hq.2.2⟩
  · exact (writeChannel_quietly (h.withChannelIds _) hs' hfree (ledger_insertChannel hc)
      rfl (contentOf_eq_none hid) hschema hK).mono fun res w' hq =>
        ⟨hq.2.1, fun _ => hq.1, fun _ => hq.2.2⟩
  · split
    · rename_i hne
      refine .inr ⟨.refl h hs hfree, fun hacc => ?_, fun hok => by cases hok⟩
      rcases hacc with hnone | ⟨id, hid', hc'⟩
      · rw [hnone] at hid
        cases hid
      · rw [hid] at hid'
        rw [hc] at hc'
        cases hid'
        cases hc'
        exact absurd rfl hne
    · rename_i heq
      obtain rfl : c = other := not_not.mp heq
      refine ⟨.refl h hs hfree, fun _ => rfl, fun _ => ⟨?_, rfl⟩⟩
      show contentOf _ _ _ = _
      rw [contentOf, hid, Option.bind_some, BiMap.getByRight_eq_some_iff.mpr hc]

omit [Encoders σ] in
theorem acceptsSchema_iff (hs : w.Sound) (schema : Schema) : w.AcceptsSchema schema ↔
    w.ledger.schemas schema.id = none ∨ w.ledger.schemas schema.id = some schema.content :=
  hs.schemas.accepts_iff

omit [Encoders σ] in
theorem acceptsChannel_iff (hs : w.Sound) (channel : Channel) : w.AcceptsChannel channel ↔
    w.ledger.channels channel.id = none ∨
      w.ledger.channels channel.id = some channel.content :=
  hs.channels.accepts_iff

end Writer
end
end Mcap

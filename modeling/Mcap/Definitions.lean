import Mcap.FinishedFile

/-! # The schemas and channels of a session

A successful call of `add_schema` or `add_channel` defines the id it returns, and one of
`write` defines those of its message: `definitionsOf calls` is what the calls of a session
have defined, in this order.  It is what the writer has in its registries
(`definitionsOf_calls`), and what it puts into its summary (`summary_schemas`,
`summary_channels`).
-/
namespace Mcap

/-! ## Definitions -/

/-- What schema and channel ids stand for. -/
structure Definitions where
  schemas : UInt16 → Option SchemaContent
  channels : UInt16 → Option ChannelContent

/-- The schema with this content. -/
def SchemaContent.schema (id : UInt16) (content : SchemaContent) : Schema where
  id
  name := content.name
  encoding := content.encoding
  data := content.data

/-- The channel with this content. -/
def ChannelContent.channel (id : UInt16) (content : ChannelContent) (schema : Option Schema) :
    Channel where
  id
  topic := content.topic
  schema
  messageEncoding := content.messageEncoding
  metadata := content.metadata

namespace Definitions

/-- Nothing is defined. -/
def none : Definitions := ⟨fun _ => .none, fun _ => .none⟩

def withSchema (d : Definitions) (id : UInt16) (content : SchemaContent) : Definitions :=
  { d with schemas := Function.update d.schemas id (some content) }

def withChannel (d : Definitions) (id : UInt16) (content : ChannelContent) : Definitions :=
  { d with channels := Function.update d.channels id (some content) }

/-- The schema an id stands for. -/
def schemaAt (d : Definitions) (id : UInt16) : Option Schema :=
  (d.schemas id).map (SchemaContent.schema id)

/-- The channel an id stands for, with its schema. -/
def channelAt (d : Definitions) (id : UInt16) : Option Channel :=
  (d.channels id).map fun content => content.channel id (d.schemaAt content.schemaId)

/-- The schema of a message, if it has one, is defined. -/
def withSchemaOf (d : Definitions) : Option Schema → Definitions
  | some schema => d.withSchema schema.id schema.content
  | .none => d

/-- **A call, and what it defines** if it succeeds. -/
def call (d : Definitions) : Op × Res McapError Reply → Definitions
  | (.addSchema name encoding data, .ok (.id id)) => d.withSchema id ⟨name, encoding, data⟩
  | (.addChannel schemaId topic messageEncoding metadata, .ok (.id id)) =>
      d.withChannel id ⟨topic, schemaId, messageEncoding, metadata⟩
  | (.write message, .ok _) =>
      (d.withSchemaOf message.channel.schema).withChannel message.channel.id message.channel.content
  | _ => d

theorem withSchema_eq_self {d : Definitions} {id : UInt16} {content : SchemaContent}
    (h : d.schemas id = some content) : d.withSchema id content = d := by
  rw [withSchema, ← h, Function.update_eq_self]

theorem withChannel_eq_self {d : Definitions} {id : UInt16} {content : ChannelContent}
    (h : d.channels id = some content) : d.withChannel id content = d := by
  rw [withChannel, ← h, Function.update_eq_self]

end Definitions

/-- What the calls define, one after the other. -/
def definitionsOf (calls : List (Op × Res McapError Reply)) : Definitions :=
  calls.foldl Definitions.call .none

theorem definitionsOf_append (calls : List (Op × Res McapError Reply))
    (c : Op × Res McapError Reply) :
    definitionsOf (calls ++ [c]) = (definitionsOf calls).call c := by
  rw [definitionsOf, definitionsOf, List.foldl_append]
  rfl

/-! ## The definitions of a writer -/

/-- What is defined in a ledger. -/
def Ledger.definitions (l : Ledger) : Definitions := ⟨l.schemas, l.channels⟩

/-- The record defines an id. -/
def Record.Defines : Record → Prop
  | .schema .. | .channel _ => True
  | _ => False

theorem Ledger.definitions_step {l : Ledger} {r : Record} (h : ¬ r.Defines) :
    (l.step r).definitions = l.definitions := by
  cases r with
  | schema | channel => exact absurd trivial h
  | _ => rfl

theorem Ledger.definitions_after {l : Ledger} {rs : List Record} (h : ∀ r ∈ rs, ¬ r.Defines) :
    (l.after rs).definitions = l.definitions := by
  induction rs generalizing l with
  | nil => rfl
  | cons r rs ih =>
    obtain ⟨hr, hrs⟩ := List.forall_mem_cons.mp h
    exact (ih hrs).trans (definitions_step hr)

section
variable {σ : Type} [Encoders σ] {w w' : Writer σ Stream} {j : Journal}

namespace Writer

theorem writeDefinition_ledger {r : Record} (hr : r.written ≠ none) (hp : w.Placed)
    (hrun : writeDefinition r w = (.ok (), w')) : w'.ledger = w.ledger := by
  by_cases hu : w.Usable
  · have hwrites := writeDefinition_writes hr hu hp
    rw [hrun] at hwrites
    exact ledger_of_core hwrites.core
  · rw [writeDefinition_panic hu] at hrun
    cases hrun

theorem addSchema_definitions (hs : w.Sound) {name encoding : String} {data : Bytes} {id : UInt16}
    (hrun : addSchema name encoding data w = (.ok id, w')) :
    w'.ledger.definitions = w.ledger.definitions.withSchema id ⟨name, encoding, data⟩ := by
  revert hrun
  refine addSchema_cases hs (fun id' hc hrun => ?_) (fun _ _ hrun => by cases hrun)
    fun canonicalSchemas id' _ _ hid hent hs' hrun => ?_
  · cases hrun
    have hknown : w.ledger.schemas id = some ⟨name, encoding, data⟩ := by
      show contentOf _ _ _ = _
      rw [contentOf, hs.schemas.self hc, Option.bind_some, BiMap.getByRight_eq_some_iff.mpr hc]
    exact (Definitions.withSchema_eq_self hknown).symm
  · obtain ⟨u, w₁, hwrite, hret⟩ := Exec.bind_eq_ok.mp hrun
    cases hret
    rw [writeDefinition_ledger (written_schema _ _) hs'.placed hwrite,
      ledger_withSchema hs hid hent]
    rfl

theorem addChannel_definitions (hs : w.Sound) {schemaId id : UInt16}
    {topic messageEncoding : String} {metadata : BTreeMap String String}
    (hrun : addChannel schemaId topic messageEncoding metadata w = (.ok id, w')) :
    w'.ledger.definitions =
      w.ledger.definitions.withChannel id ⟨topic, schemaId, messageEncoding, metadata⟩ := by
  revert hrun
  refine addChannel_cases hs (fun id' hc hrun => ?_) (fun _ _ hrun => by cases hrun)
    (fun _ _ hrun => by cases hrun) fun canonicalChannels id' _ _ _ hid hent hs' hrun => ?_
  · cases hrun
    have hknown : w.ledger.channels id = some ⟨topic, schemaId, messageEncoding, metadata⟩ := by
      show contentOf _ _ _ = _
      rw [contentOf, hs.channels.self hc, Option.bind_some, BiMap.getByRight_eq_some_iff.mpr hc]
    exact (Definitions.withChannel_eq_self hknown).symm
  · obtain ⟨u, w₁, hwrite, hret⟩ := Exec.bind_eq_ok.mp hrun
    cases hret
    rw [writeDefinition_ledger (written_channel _ _) hs'.placed hwrite,
      ledger_withChannel hs hid hent]
    rfl

theorem registerSchema_definitions (hs : w.Sound) {schema : Schema}
    (hrun : registerSchema schema w = (.ok (), w')) :
    w'.ledger.definitions = w.ledger.definitions.withSchema schema.id schema.content := by
  revert hrun
  refine registerSchema_cases hs (fun canonicalSchemas hid hent hs' hrun => ?_)
    (fun c hid hc hs' hrun => ?_) (fun hrun => by cases hrun) fun other c hid hc hrun => ?_
  · rw [writeDefinition_ledger (written_schema _ _) hs'.placed hrun, ledger_withSchema hs hid hent]
    rfl
  · rw [writeDefinition_ledger (written_schema _ _) hs'.placed hrun, ledger_insertSchema hc]
    rfl
  · split at hrun
    · cases hrun
    · rename_i heq
      cases hrun
      obtain rfl : other = c := not_not.mp heq
      have hknown : w.ledger.schemas schema.id = some schema.content := by
        show contentOf _ _ _ = _
        rw [contentOf, hid, Option.bind_some, BiMap.getByRight_eq_some_iff.mpr hc]
      exact (Definitions.withSchema_eq_self hknown).symm

theorem registerChannel_definitions (hs : w.Sound) {channel : Channel}
    (hrun : registerChannel channel w = (.ok (), w')) :
    w'.ledger.definitions = w.ledger.definitions.withChannel channel.id channel.content := by
  revert hrun
  refine registerChannel_cases hs (fun canonicalChannels hid hent hs' hrun => ?_)
    (fun c hid hc hs' hrun => ?_) (fun hrun => by cases hrun) fun other c hid hc hrun => ?_
  · rw [writeDefinition_ledger (written_channel _ _) hs'.placed hrun, ledger_withChannel hs hid hent]
    rfl
  · rw [writeDefinition_ledger (written_channel _ _) hs'.placed hrun, ledger_insertChannel hc]
    rfl
  · split at hrun
    · cases hrun
    · rename_i heq
      cases hrun
      obtain rfl : c = other := not_not.mp heq
      have hknown : w.ledger.channels channel.id = some channel.content := by
        show contentOf _ _ _ = _
        rw [contentOf, hid, Option.bind_some, BiMap.getByRight_eq_some_iff.mpr hc]
      exact (Definitions.withChannel_eq_self hknown).symm

theorem writeToKnownChannel_definitions (hp : w.Placed) {header : MessageHeader} {data : Bytes}
    (hrun : writeToKnownChannel header data w = (.ok (), w')) :
    w'.ledger.definitions = w.ledger.definitions := by
  by_cases hk : w.allChannelIds.contains header.channelId = true
  · rw [writeToKnownChannel_run hk] at hrun
    by_cases hu : (countMessage header w).Usable
    · have hwrites : Writes _ ((rollChunk >>= fun _ => writeMessageRecord header data)
        (countMessage header w)) := rollChunk_writeMessage_writes hu hp
      rw [hrun] at hwrites
      rw [ledger_of_core hwrites.core]
      rfl
    · rw [rollChunk_writeMessage_panic hu] at hrun
      cases hrun
  · have hfalse : w.allChannelIds.contains header.channelId = false := Bool.eq_false_iff.mpr hk
    rw [writeToKnownChannel, Exec.bind_ok (Exec.get_run w), if_pos hfalse] at hrun
    cases hrun

theorem write_definitions (hs : w.Sound) {message : Message}
    (hrun : write message w = (.ok (), w')) :
    w'.ledger.definitions = (w.ledger.definitions.withSchemaOf message.channel.schema).withChannel
      message.channel.id message.channel.content := by
  rw [write_eq] at hrun
  obtain ⟨⟨⟩, w₁, hschema, hrun⟩ := Exec.bind_eq_ok.mp hrun
  obtain ⟨⟨⟩, w₂, hchannel, hmessage⟩ := Exec.bind_eq_ok.mp hrun
  have h₁ : w₁.Sound ∧
      w₁.ledger.definitions = w.ledger.definitions.withSchemaOf message.channel.schema := by
    rcases hsch : message.channel.schema with _ | schema
    · rw [hsch] at hschema
      cases hschema
      exact ⟨hs, rfl⟩
    · rw [hsch] at hschema
      have hgood := preserves_registerSchema schema w ⟨hs, .refl w⟩
      rw [show registerSchema schema w = _ from hschema] at hgood
      exact ⟨hgood.sound, registerSchema_definitions hs hschema⟩
  have hgood := preserves_registerChannel message.channel w₁ ⟨h₁.1, .refl w₁⟩
  rw [hchannel] at hgood
  rw [writeToKnownChannel_definitions hgood.placed hmessage, registerChannel_definitions h₁.1 hchannel,
    h₁.2]

omit [Encoders σ] in
theorem summarySchemas_eq {schemas : BTreeMap UInt16 Schema} (h : w.summarySchemas = some schemas)
    (id : UInt16) : schemas[id]? = w.ledger.definitions.schemaAt id := by
  have hfold : w.allSchemaIds.toList.foldlM (fun (m : BTreeMap UInt16 Schema) e =>
      (w.canonicalSchemas.getByRight e.2).bind fun content =>
        some (m.insert e.1 (SchemaContent.schema e.1 content))) ∅ = some schemas := h
  rw [BTreeMap.getElem?_of_foldlM_toList hfold, Definitions.schemaAt, Ledger.definitions, ledger]
  simp only [contentOf]
  cases w.allSchemaIds[id]? <;> rfl

omit [Encoders σ] in
theorem summaryChannels_eq {schemas : BTreeMap UInt16 Schema} {channels : BTreeMap UInt16 Channel}
    (hs : w.summarySchemas = some schemas) (h : w.summaryChannels schemas = some channels)
    (id : UInt16) : channels[id]? = w.ledger.definitions.channelAt id := by
  have hfold : w.allChannelIds.toList.foldlM (fun (m : BTreeMap UInt16 Channel) e =>
      (w.canonicalChannels.getByRight e.2).bind fun content => some (m.insert e.1
        (ChannelContent.channel e.1 content schemas[content.schemaId]?))) ∅ = some channels := h
  have hchannels : channels[id]? = (w.ledger.channels id).map fun content =>
      content.channel id schemas[content.schemaId]? := by
    rw [BTreeMap.getElem?_of_foldlM_toList (g := fun id content =>
      ChannelContent.channel id content schemas[content.schemaId]?) hfold]
    simp only [ledger, contentOf]
    cases w.allChannelIds[id]? <;> rfl
  rw [hchannels]
  simp only [summarySchemas_eq hs]
  rfl

theorem free_of_ok {op : Op} {reply : Reply} (h : Shows w j) (hs : w.Sound)
    (hrun : op.run w = (.ok reply, w')) : op.Touches w → j.Free := by
  intro ht header length data htail
  obtain ⟨es, tail⟩ := j
  subst htail
  obtain ⟨w'', hx, -⟩ := touches_refused h hs ht
  rw [hrun] at hx
  cases hx

theorem pending_defines (j : Journal) (o : WriteOptions) : j.Pending (fun r => ¬ r.Defines) o :=
  fun _ _ _ _ _ _ h => h

/-- **A call defines what it says.** -/
theorem call_definitions {op : Op} {reply : Reply} (h : Shows w j) (hs : w.Sound)
    (hrun : op.run w = (.ok reply, w')) :
    w'.ledger.definitions = w.ledger.definitions.call (op, .ok reply) := by
  -- what the other calls write defines nothing
  have hother : op.Keeps (fun r => ¬ r.Defines) w.options →
      w'.ledger.definitions = w.ledger.definitions := by
    intro hkeeps
    have hadv := op_advances h hs (pending_defines j _) (free_of_ok h hs hrun) hkeeps
    rw [hrun] at hadv
    obtain ⟨records, j', hadv, -⟩ := hadv
    rw [hadv.ledger, Ledger.definitions_after hadv.kept]
  cases op with
  | addSchema name encoding data =>
    obtain ⟨id, w₁, hadd, hret⟩ := Exec.bind_eq_ok.mp
      (show Reply.ofId (addSchema name encoding data) w = (.ok reply, w') from hrun)
    cases hret
    exact addSchema_definitions hs hadd
  | addChannel schemaId topic messageEncoding metadata =>
    obtain ⟨id, w₁, hadd, hret⟩ := Exec.bind_eq_ok.mp
      (show Reply.ofId (addChannel schemaId topic messageEncoding metadata) w = (.ok reply, w')
        from hrun)
    cases hret
    exact addChannel_definitions hs hadd
  | write message =>
    obtain ⟨u, w₁, hwrite, hret⟩ := Exec.bind_eq_ok.mp
      (show Reply.ofUnit (Writer.write message) w = (.ok reply, w') from hrun)
    cases hret
    exact write_definitions hs hwrite
  | writeToKnownChannel header data => exact hother id
  | writePrivateRecord opcode data _ => exact hother fun _ => id
  | startAttachment | attach => exact hother fun _ _ => id
  | writeMetadata => exact hother id
  | _ => exact hother trivial

end Writer

variable {K : Record → Prop} {o : WriteOptions} {calls : List (Op × Res McapError Reply)}

/-- **The writer has in its registries what the calls have defined**, if all of them have
succeeded. -/
theorem definitionsOf_calls
    {P : Writer σ Stream → Op → Res McapError Reply → Prop} (h : Writer.Session P o calls w)
    (hP : ∀ w op res, P w op res → ∃ reply, res = .ok reply) :
    w.ledger.definitions = definitionsOf calls := by
  induction h with
  | @start w hnew =>
    have hledger := (faithful_new (K := fun _ => True) hnew trivial).ledger
    rw [hledger]
    rfl
  | @call calls w w' op res hsession hp hrun hr ih =>
    obtain ⟨reply, rfl⟩ := hP w op res hp
    obtain ⟨j, hj⟩ := hsession.recorded (K := fun _ => True) trivial fun w op _ _ =>
      op.keeps_true o
    rw [definitionsOf_append, ← ih, Writer.call_definitions hj.shows_ hj.sound hrun]

end
end Mcap

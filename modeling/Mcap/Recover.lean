import Mcap.Backing
import Mcap.IdAllocation

/-! # Recovering a file

`mcap recover` reads the records of a damaged file and writes them to a new one
(`recover_record` of `recover.rs`).  The new file gets ids of its own, so the command keeps
a map from the ids it reads to those it writes, and a channel that comes before its schema is
parked until the schema is read.

The first definition of an id is to be kept.  `Recovery.Carries` says what that means for a
channel of the new file, and `first_definitions_kept` that each message is on such a channel
if no channel is redefined while it is parked.  The check for a second definition looks only at the
channels that have been written, so `pending_channel_replaced` is a run in which the second
definition of a parked channel is the one that is written.
-/
namespace Mcap

/-- `SchemaDef`. -/
structure SchemaDef where
  name : String
  encoding : String
  data : Bytes
deriving DecidableEq

/-- `RecoveryState`. -/
structure RecoveryState where
  schemaMap : BTreeMap UInt16 UInt16
  channelMap : BTreeMap UInt16 UInt16
  seenSchemas : BTreeMap UInt16 SchemaDef
  seenChannels : BTreeMap UInt16 ChannelRecord
  pendingChannels : BTreeMap UInt16 ChannelRecord
  warnedMissingChannels : BTreeMap UInt16 Unit
deriving DecidableEq

/-- `RecoveryState::default`. -/
def RecoveryState.empty : RecoveryState := ⟨∅, ∅, ∅, ∅, ∅, ∅⟩

/-- `RecoverStats`. -/
structure RecoverStats where
  messages : UInt64
  attachments : UInt64
  metadata : UInt64
deriving DecidableEq

/-- A message that has been written: its header as it was read, and as it was written. -/
structure Transfer where
  read : MessageHeader
  sent : MessageHeader
  data : Bytes
deriving DecidableEq

/-- What `recover_record` works on, the lines it prints, and the messages it has written. -/
structure Recovery (σ W : Type) where
  writer : Writer σ W
  state : RecoveryState
  stats : RecoverStats
  stderr : List String
  written : List Transfer

namespace Recovery
variable {σ W : Type} [Encoders σ] [Write W] [Seek W]

/-- A recovery that is about to begin. -/
def new (writer : Writer σ W) : Recovery σ W := ⟨writer, .empty, ⟨0, 0, 0⟩, [], []⟩

/-- A call on the writer. -/
def onWriter {α : Type} (x : Exec (Writer σ W) McapError α) : Exec (Recovery σ W) McapError α :=
  fun r => ((x r.writer).1, { r with writer := (x r.writer).2 })

/-- `eprintln!`. -/
def eprintln (line : String) : Exec (Recovery σ W) McapError Unit :=
  Exec.modify fun r => { r with stderr := r.stderr ++ [line] }

/-- `write_channel_mapping`. -/
def writeChannelMapping (channel : ChannelRecord) : Exec (Recovery σ W) McapError Unit := do
  let r ← Exec.get
  let schemaId := if channel.schemaId = 0 then some 0 else r.state.schemaMap[channel.schemaId]?
  match schemaId with
  | none => pure ()
  | some outputSchemaId =>
      let outputChannelId ← onWriter
        (Writer.addChannel outputSchemaId channel.topic channel.messageEncoding channel.metadata)
      Exec.modify fun r =>
        { r with state :=
          { r.state with
            channelMap := r.state.channelMap.insert channel.id outputChannelId
            seenChannels := r.state.seenChannels.insert channel.id channel } }

/-- The loop of `resolve_pending_channels`. -/
def resolveAll : List UInt16 → Exec (Recovery σ W) McapError Unit
  | [] => pure ()
  | channelId :: rest => do
      let r ← Exec.get
      match r.state.pendingChannels[channelId]? with
      | none => resolveAll rest
      | some channel =>
          Exec.modify fun r =>
            { r with state :=
              { r.state with pendingChannels := r.state.pendingChannels.erase channelId } }
          writeChannelMapping channel
          resolveAll rest

/-- The parked channels with this schema. -/
def toResolve (state : RecoveryState) (schemaId : UInt16) : List UInt16 :=
  state.pendingChannels.toList.filterMap fun (channelId, channel) =>
    if channel.schemaId = schemaId then some channelId else none

/-- `resolve_pending_channels`. -/
def resolvePendingChannels (schemaId : UInt16) : Exec (Recovery σ W) McapError Unit := do
  let r ← Exec.get
  resolveAll (toResolve r.state schemaId)

/-- `register_schema`. -/
def registerSchema (inputSchemaId : UInt16) (schema : SchemaDef) :
    Exec (Recovery σ W) McapError Unit := do
  let r ← Exec.get
  match r.state.seenSchemas[inputSchemaId]? with
  | some existing =>
      if existing ≠ schema then
        eprintln ("Warning: conflicting schema definition for id " ++ toString inputSchemaId ++
          "; keeping first")
      else pure ()
  | none =>
      let outputSchemaId ← onWriter (Writer.addSchema schema.name schema.encoding schema.data)
      Exec.modify fun r =>
        { r with state :=
          { r.state with
            schemaMap := r.state.schemaMap.insert inputSchemaId outputSchemaId
            seenSchemas := r.state.seenSchemas.insert inputSchemaId schema } }
      resolvePendingChannels inputSchemaId

/-- `register_channel`. -/
def registerChannel (channel : ChannelRecord) : Exec (Recovery σ W) McapError Unit := do
  let r ← Exec.get
  match r.state.seenChannels[channel.id]? with
  | some existing =>
      if existing ≠ channel then
        eprintln ("Warning: conflicting channel definition for id " ++ toString channel.id ++
          "; keeping first")
      else pure ()
  | none =>
      if channel.schemaId ≠ 0 ∧ r.state.schemaMap.contains channel.schemaId = false then
        Exec.modify fun r =>
          { r with state :=
            { r.state with
              pendingChannels := r.state.pendingChannels.insert channel.id channel } }
      else writeChannelMapping channel

/-- The warning about a message of a channel that is not there, once for each channel. -/
def warnMissing (channelId : UInt16) : Exec (Recovery σ W) McapError Unit := do
  let r ← Exec.get
  if r.state.warnedMissingChannels.contains channelId then pure ()
  else
    Exec.modify fun r =>
      { r with state :=
        { r.state with
          warnedMissingChannels := r.state.warnedMissingChannels.insert channelId () } }
    match r.state.pendingChannels[channelId]? with
    | some pending =>
        eprintln ("Warning: skipping messages for channel id " ++ toString channelId ++
          " (schema id " ++ toString pending.schemaId ++ " not found)")
    | none => eprintln ("Warning: skipping messages for unknown channel id " ++ toString channelId)

/-- The message branch of `recover_record`. -/
def recoverMessage (header : MessageHeader) (data : Bytes) :
    Exec (Recovery σ W) McapError Unit := do
  let r ← Exec.get
  match r.state.channelMap[header.channelId]? with
  | none => warnMissing header.channelId
  | some channelId =>
      let recovered : MessageHeader :=
        { channelId
          sequence := header.sequence
          logTime := header.logTime
          publishTime := header.publishTime }
      onWriter (Writer.writeToKnownChannel recovered data)
      Exec.modify fun r =>
        { r with
          stats := { r.stats with messages := r.stats.messages + 1 }
          written := r.written ++ [⟨header, recovered, data⟩] }

/-- `recover_record`. -/
def recoverRecord : Record → Exec (Recovery σ W) McapError Unit
  | .schema header data => registerSchema header.id ⟨header.name, header.encoding, data⟩
  | .channel channel => registerChannel channel
  | .message header data => recoverMessage header data
  | .attachment header data _ => do
      onWriter (Writer.attach
        { logTime := header.logTime
          createTime := header.createTime
          name := header.name
          mediaType := header.mediaType
          data })
      Exec.modify fun r =>
        { r with stats := { r.stats with attachments := r.stats.attachments + 1 } }
  | .metadata metadata => do
      onWriter (Writer.writeMetadata metadata)
      Exec.modify fun r => { r with stats := { r.stats with metadata := r.stats.metadata + 1 } }
  | _ => pure ()

/-- The loop of `recover_records`, over the records that could be read and parsed. -/
def recoverRecords : List Record → Exec (Recovery σ W) McapError Unit
  | [] => pure ()
  | record :: records => do
      recoverRecord record
      recoverRecords records

end Recovery

/-! ## First definitions -/

/-- The first definition of a schema id among the records. -/
def firstSchema (records : List Record) (id : UInt16) : Option SchemaDef :=
  records.findSome? fun
    | .schema header data =>
        if header.id = id then some ⟨header.name, header.encoding, data⟩ else none
    | _ => none

/-- The first definition of a channel id among the records. -/
def firstChannel (records : List Record) (id : UInt16) : Option ChannelRecord :=
  records.findSome? fun
    | .channel channel => if channel.id = id then some channel else none
    | _ => none

section
variable {records : List Record} {r : Record} {id : UInt16}

theorem firstSchema_append_of_some {schema : SchemaDef} (h : firstSchema records id = some schema) :
    firstSchema (records ++ [r]) id = some schema := by
  rw [firstSchema, List.findSome?_append]
  exact Option.or_eq_some_iff.mpr (.inl h)

theorem firstChannel_append_of_some {channel : ChannelRecord}
    (h : firstChannel records id = some channel) :
    firstChannel (records ++ [r]) id = some channel := by
  rw [firstChannel, List.findSome?_append]
  exact Option.or_eq_some_iff.mpr (.inl h)

theorem firstSchema_append_of_none (h : firstSchema records id = none) :
    firstSchema (records ++ [r]) id = firstSchema [r] id := by
  rw [firstSchema, List.findSome?_append, ← firstSchema, h]
  rfl

theorem firstChannel_append_of_none (h : firstChannel records id = none) :
    firstChannel (records ++ [r]) id = firstChannel [r] id := by
  rw [firstChannel, List.findSome?_append, ← firstChannel, h]
  rfl

end

theorem firstChannel_id {channel : ChannelRecord} {records : List Record} {id : UInt16}
    (h : firstChannel records id = some channel) : channel.id = id := by
  obtain ⟨r, -, hr⟩ := List.exists_of_findSome?_eq_some h
  cases r with
  | channel c =>
    by_cases hid : c.id = id
    · obtain rfl : c = channel := by simpa [hid] using hr
      exact hid
    · simp [hid] at hr
  | _ => simp at hr

/-- The content a schema is registered as. -/
def SchemaDef.content (schema : SchemaDef) : SchemaContent :=
  ⟨schema.name, schema.encoding, schema.data⟩

/-- **The new file has this channel under the id `out`**: its topic, encoding and metadata, and
its schema as it was first defined.  The id 0 stands for no schema. -/
def Carries (l : Ledger) (records : List Record) (channel : ChannelRecord) (out : UInt16) : Prop :=
  ∃ content, l.channels out = some content ∧ content.topic = channel.topic ∧
    content.messageEncoding = channel.messageEncoding ∧ content.metadata = channel.metadata ∧
    (channel.schemaId = 0 → content.schemaId = 0) ∧
    (channel.schemaId ≠ 0 → content.schemaId ≠ 0 ∧ ∃ schema,
      firstSchema records channel.schemaId = some schema ∧
        l.schemas content.schemaId = some schema.content)

/-- The message is on the channel that its channel id was first defined as. -/
def Transfer.First (l : Ledger) (records : List Record) (t : Transfer) : Prop :=
  ∃ channel, firstChannel records t.read.channelId = some channel ∧
    Carries l records channel t.sent.channelId

/-! ## What the writer keeps -/

section
variable {σ : Type} {w w' : Writer σ Stream} {id : UInt16}

theorem Writer.Extends.schemas_ledger (h : Writer.Extends w w') {content : SchemaContent}
    (hid : w.ledger.schemas id = some content) :
    w'.ledger.schemas id = some content := by
  obtain ⟨c, hc, hr⟩ := Option.bind_eq_some_iff.mp hid
  refine Option.bind_eq_some_iff.mpr ⟨c, h.schemaIds hc, ?_⟩
  rw [BiMap.getByRight_eq_some_iff] at hr ⊢
  exact h.schemas hr

theorem Writer.Extends.channels_ledger (h : Writer.Extends w w') {content : ChannelContent}
    (hid : w.ledger.channels id = some content) :
    w'.ledger.channels id = some content := by
  obtain ⟨c, hc, hr⟩ := Option.bind_eq_some_iff.mp hid
  refine Option.bind_eq_some_iff.mpr ⟨c, h.channelIds hc, ?_⟩
  rw [BiMap.getByRight_eq_some_iff] at hr ⊢
  exact h.channels hr

theorem Writer.Sound.schemas_ledger (h : w.Sound) {content : SchemaContent}
    (hc : w.canonicalSchemas.getByLeft content = some id) :
    w.ledger.schemas id = some content :=
  Option.bind_eq_some_iff.mpr ⟨id, h.schemas.self hc, BiMap.getByRight_eq_some_iff.mpr hc⟩

theorem Writer.Sound.channels_ledger (h : w.Sound) {content : ChannelContent}
    (hc : w.canonicalChannels.getByLeft content = some id) :
    w.ledger.channels id = some content :=
  Option.bind_eq_some_iff.mpr ⟨id, h.channels.self hc, BiMap.getByRight_eq_some_iff.mpr hc⟩

theorem Carries.mono {records : List Record} {channel : ChannelRecord} {out : UInt16}
    (h : Carries w.ledger records channel out) (hext : Writer.Extends w w') :
    Carries w'.ledger records channel out := by
  obtain ⟨content, hc, ht, he, hm, hzero, hschema⟩ := h
  refine ⟨content, hext.channels_ledger hc, ht, he, hm, hzero, fun hne => ?_⟩
  obtain ⟨hne', schema, hfirst, hl⟩ := hschema hne
  exact ⟨hne', schema, hfirst, hext.schemas_ledger hl⟩

theorem Carries.append {l : Ledger} {records : List Record} {channel : ChannelRecord}
    {out : UInt16} (h : Carries l records channel out) (r : Record) :
    Carries l (records ++ [r]) channel out := by
  obtain ⟨content, hc, ht, he, hm, hzero, hschema⟩ := h
  refine ⟨content, hc, ht, he, hm, hzero, fun hne => ?_⟩
  obtain ⟨hne', schema, hfirst, hl⟩ := hschema hne
  exact ⟨hne', schema, firstSchema_append_of_some hfirst, hl⟩

/-- No schema is registered under the id 0. -/
def Writer.NonZero (w : Writer σ Stream) : Prop :=
  ∀ content id, w.canonicalSchemas.getByLeft content = some id → id ≠ 0

/-- The writer has these schemas, and an open chunk is placed. -/
def Writer.HasSchemas (m : BiMap SchemaContent UInt16) (w : Writer σ Stream) : Prop :=
  w.canonicalSchemas = m ∧ w.Placed

namespace Writer
variable {m : BiMap SchemaContent UInt16}

theorem steady_hasSchemas : Steady (HasSchemas (σ := σ) m) where
  placed h := h.2
  of_registry h hr hp := ⟨(congrArg Prod.fst hr).trans h.1, hp⟩

theorem NonZero.of_hasSchemas (h : w.NonZero) (hw : w'.HasSchemas w.canonicalSchemas) :
    w'.NonZero := by
  intro content id hid
  rw [hw.1] at hid
  exact h content id hid

variable [Encoders σ]

/-- **A new schema gets an id other than 0**, unless the counter is 0. -/
theorem nonZero_addSchema (hs : w.Sound) (hz : w.NonZero) (hnext : w.nextSchemaId ≠ 0)
    (name encoding : String) (data : Bytes) : (addSchema name encoding data w).2.NonZero := by
  refine addSchema_cases hs (fun _ _ => hz) (fun _ _ => hz)
    fun canonicalSchemas id hid _ _ hent hs' => ?_
  have hnew : (w.withSchema canonicalSchemas id (id + 1)).NonZero := by
    intro content id' hid'
    rcases (BiMap.getByLeft_insert hent).mp hid' with hold | ⟨-, rfl⟩
    · exact hz content id' hold
    · rw [hid]
      exact candidate_ne_zero hnext
  refine hnew.of_hasSchemas ?_
  exact (steady_writeDefinition steady_hasSchemas (written_schema _ _)).bind
    (fun _ => .pure _) _ ⟨rfl, hs'.placed⟩

theorem hasSchemas_addChannel (hs : w.Sound) (schemaId : UInt16) (topic messageEncoding : String)
    (metadata : BTreeMap String String) :
    (addChannel schemaId topic messageEncoding metadata w).2.HasSchemas w.canonicalSchemas := by
  refine addChannel_cases hs (fun _ _ => ⟨rfl, hs.placed⟩) (fun _ _ => ⟨rfl, hs.placed⟩)
    (fun _ _ => ⟨rfl, hs.placed⟩) fun canonicalChannels id _ _ _ _ _ hs' => ?_
  exact (steady_writeDefinition steady_hasSchemas (written_channel _ _)).bind
    (fun _ => .pure _) _ ⟨rfl, hs'.placed⟩

end Writer
end

/-! ## Runs -/

namespace Recovery
variable {σ : Type} [Encoders σ]

/-- **What a file must not do**: define a parked channel a second time, and differently, or bring
a new schema when all ids other than 0 are taken. -/
def Orderly (r : Recovery σ Stream) : Record → Prop
  | .channel channel => ∀ pending, r.state.pendingChannels[channel.id]? = some pending →
      channel = pending
  | .schema header _ => r.state.seenSchemas[header.id]? = none → r.writer.nextSchemaId ≠ 0
  | _ => True

/-- **A recovery**: records that are fed one after the other to a new writer, without an error.
`P` holds of each record and of what it is fed to. -/
inductive Run (P : Recovery σ Stream → Record → Prop) (stream : Stream) (o : WriteOptions) :
    List Record → Recovery σ Stream → Prop
  | start {w : Writer σ Stream} : Writer.withOptions stream o = .ok w → Run P stream o [] (new w)
  | feed {fed : List Record} {r r' : Recovery σ Stream} (record : Record) : Run P stream o fed r →
      P r record → recoverRecord record r = (.ok (), r') → Run P stream o (fed ++ [record]) r'

/-- The calls on the writer so far, if its stream does not fail: they have sent the messages. -/
def Logged (stream : Stream) (o : WriteOptions) (w : Writer σ Stream) (written : List Transfer) :
    Prop :=
  stream = Stream.empty → ∃ calls,
    Writer.Session (fun _ _ res => ∃ reply, res = .ok reply) o calls w ∧
      sentBy calls = written.map fun t => (t.sent, t.data)

/-- **What a recovery keeps**: the maps hold what was defined first, and each message is on such
a channel. -/
structure Kept (stream : Stream) (o : WriteOptions) (fed : List Record) (r : Recovery σ Stream) :
    Prop where
  sound : r.writer.Sound
  nonZero : r.writer.NonZero
  logged : Logged stream o r.writer r.written
  schemas : ∀ id, r.state.seenSchemas[id]? = firstSchema fed id
  schemaMap : ∀ {id out}, r.state.schemaMap[id]? = some out → ∃ schema,
    firstSchema fed id = some schema ∧
      r.writer.canonicalSchemas.getByLeft schema.content = some out
  seen : ∀ {id channel}, r.state.seenChannels[id]? = some channel →
    firstChannel fed id = some channel
  pending : ∀ {id channel}, r.state.pendingChannels[id]? = some channel →
    firstChannel fed id = some channel
  channelMap : ∀ {id out}, r.state.channelMap[id]? = some out → ∃ channel,
    firstChannel fed id = some channel ∧ Carries r.writer.ledger fed channel out
  written : ∀ t ∈ r.written, t.First r.writer.ledger fed

/-- Each channel that has been defined has been written, or is parked. -/
def Complete (fed : List Record) (r : Recovery σ Stream) : Prop :=
  ∀ id, firstChannel fed id ≠ none →
    r.state.seenChannels[id]? ≠ none ∨ r.state.pendingChannels[id]? ≠ none

variable {stream : Stream} {o : WriteOptions} {fed : List Record} {r r' : Recovery σ Stream}
  {w : Writer σ Stream} {channel : ChannelRecord} {record : Record}

omit [Encoders σ] in
theorem onWriter_eq_ok {α : Type} {x : Exec (Writer σ Stream) McapError α} {a : α} :
    onWriter x r = (.ok a, r') ↔
      ∃ w, x r.writer = (.ok a, w) ∧ r' = { r with writer := w } := by
  rcases hx : x r.writer with ⟨res, w⟩
  simp only [onWriter, hx, Prod.mk.injEq]
  constructor
  · rintro ⟨rfl, rfl⟩
    exact ⟨w, ⟨rfl, rfl⟩, rfl⟩
  · rintro ⟨_, ⟨rfl, rfl⟩, rfl⟩
    exact ⟨rfl, rfl⟩

/-- **A call on the writer keeps all of it.**  What it sends is on channels as first defined. -/
theorem Kept.call (h : Kept stream o fed r) {op : Op} {reply : Reply} {m : List Transfer}
    (hrun : op.run r.writer = (.ok reply, w)) (hz : w.NonZero)
    (hsent : m.map (fun t => (t.sent, t.data)) = op.messages)
    (hts : ∀ t ∈ m, t.First r.writer.ledger fed) :
    Kept stream o fed { r with writer := w, written := r.written ++ m } := by
  have hgood := Writer.preserves_run op r.writer ⟨h.sound, .refl _⟩
  rw [hrun] at hgood
  have hfirst : ∀ t : Transfer, t.First r.writer.ledger fed → t.First w.ledger fed := by
    rintro t ⟨channel, hch, hcar⟩
    exact ⟨channel, hch, hcar.mono hgood.grows⟩
  refine ⟨hgood.sound, hz, fun hs => ?_, h.schemas, fun hid => ?_, h.seen, h.pending,
    fun hid => ?_, ?_⟩
  · obtain ⟨calls, hsession, hcalls⟩ := h.logged hs
    refine ⟨calls ++ [(op, .ok reply)],
      hsession.call ⟨reply, rfl⟩ hrun (returned_of_ok rfl), ?_⟩
    rw [sentBy, List.flatMap_append, ← sentBy, hcalls, List.map_append, hsent]
    simp [posted]
  · obtain ⟨schema, hfirst, hc⟩ := h.schemaMap hid
    exact ⟨schema, hfirst, hgood.grows.schemas hc⟩
  · obtain ⟨channel, hch, hcar⟩ := h.channelMap hid
    exact ⟨channel, hch, hcar.mono hgood.grows⟩
  · intro t ht
    rcases List.mem_append.mp ht with hold | hnew
    · exact hfirst t (h.written t hold)
    · exact hfirst t (hts t hnew)

theorem Kept.quietCall (h : Kept stream o fed r) {op : Op} {reply : Reply}
    (hrun : op.run r.writer = (.ok reply, w)) (hz : w.NonZero) (hsent : op.messages = []) :
    Kept stream o fed { r with writer := w } := by
  have hcall := h.call (m := []) hrun hz hsent.symm (List.forall_mem_nil _)
  rwa [List.append_nil] at hcall

theorem Kept.of_eq (h : Kept stream o fed r) (hw : r'.writer = r.writer)
    (hs : r'.state = r.state) (hm : r'.written = r.written) : Kept stream o fed r' := by
  obtain ⟨writer, state, stats, stderr, written⟩ := r'
  simp only at hw hs hm
  subst hw hs hm
  exact ⟨h.sound, h.nonZero, h.logged, h.schemas, h.schemaMap, h.seen, h.pending, h.channelMap,
    h.written⟩

/-! ### Channels -/

/-- **A channel is written as it was first defined.** -/
theorem Kept.writeChannelMapping (h : Kept stream o fed r)
    (hfirst : firstChannel fed channel.id = some channel)
    (hschema : channel.schemaId ≠ 0 → r.state.schemaMap.contains channel.schemaId = true)
    (hrun : writeChannelMapping channel r = (.ok (), r')) :
    Kept stream o fed r' ∧ r'.state.pendingChannels = r.state.pendingChannels ∧
      r'.state.schemaMap = r.state.schemaMap ∧
      r'.state.seenChannels = r.state.seenChannels.insert channel.id channel := by
  obtain ⟨out, hout⟩ : ∃ out, (if channel.schemaId = 0 then some 0
      else r.state.schemaMap[channel.schemaId]?) = some out := by
    by_cases hzero : channel.schemaId = 0
    · exact ⟨0, if_pos hzero⟩
    · obtain ⟨out, hout⟩ := (BTreeMap.contains_iff _ _).mp (hschema hzero)
      exact ⟨out, (if_neg hzero).trans hout⟩
  rw [Recovery.writeChannelMapping, Exec.bind_ok (Exec.get_run r)] at hrun
  simp only [hout] at hrun
  obtain ⟨id, r₁, hadd, hrun⟩ := Exec.bind_eq_ok.mp hrun
  obtain ⟨w, hw, rfl⟩ := onWriter_eq_ok.mp hadd
  rw [Exec.modify_run] at hrun
  cases hrun
  have hop : (Op.addChannel out channel.topic channel.messageEncoding channel.metadata).run r.writer =
      (.ok (.id id), w) := by
    rw [Op.run, Reply.ofId, Exec.bind_ok hw]
    rfl
  have hz : w.NonZero := by
    have hsame := Writer.hasSchemas_addChannel h.sound out channel.topic channel.messageEncoding
      channel.metadata
    rw [hw] at hsame
    exact h.nonZero.of_hasSchemas hsame
  have hkept := h.quietCall hop hz rfl
  -- the id is that of the content, whether it was known before or not
  have hid : w.canonicalChannels.getByLeft
      ⟨channel.topic, out, channel.messageEncoding, channel.metadata⟩ = some id := by
    cases hc : r.writer.canonicalChannels.getByLeft
        ⟨channel.topic, out, channel.messageEncoding, channel.metadata⟩ with
    | some known =>
      rw [Writer.addChannel_known hc] at hw
      cases hw
      exact hc
    | none => exact ((Writer.allocatesChannels h.sound).fresh hc hw).2
  have hcarries : Carries w.ledger fed channel id := by
    refine ⟨_, hkept.sound.channels_ledger hid, rfl, rfl, rfl, fun hzero => ?_, fun hne => ?_⟩
    · exact (Option.some.inj ((if_pos hzero).symm.trans hout)).symm
    · obtain ⟨schema, hschema, hc⟩ := hkept.schemaMap ((if_neg hne).symm.trans hout)
      exact ⟨hz _ _ hc, schema, hschema, hkept.sound.schemas_ledger hc⟩
  refine ⟨⟨hkept.sound, hkept.nonZero, hkept.logged, hkept.schemas, hkept.schemaMap, ?_,
    hkept.pending, ?_, hkept.written⟩, rfl, rfl, rfl⟩
  · intro id' channel' hid'
    rcases BTreeMap.of_getElem?_insert hid' with ⟨rfl, rfl⟩ | hold
    · exact hfirst
    · exact hkept.seen hold
  · intro id' out' hid'
    rcases BTreeMap.of_getElem?_insert hid' with ⟨rfl, rfl⟩ | hold
    · exact ⟨channel, hfirst, hcarries⟩
    · exact hkept.channelMap hold

theorem Kept.unpark (h : Kept stream o fed r) (id : UInt16) :
    Kept stream o fed
      { r with state := { r.state with pendingChannels := r.state.pendingChannels.erase id } } := by
  refine ⟨h.sound, h.nonZero, h.logged, h.schemas, h.schemaMap, h.seen, fun {id' channel} hid => ?_,
    h.channelMap, h.written⟩
  have hid' : (r.state.pendingChannels.erase id)[id']? = some channel := hid
  rw [Std.ExtTreeMap.getElem?_erase] at hid'
  split at hid'
  · cases hid'
  · exact h.pending hid'

/-- **The loop over the parked channels of a schema**, by induction on those that are left.  Each
of them leaves the parked ones and joins the written ones. -/
theorem Kept.resolveAll {schemaId : UInt16} {ids : List UInt16} (h : Kept stream o fed r)
    (hc : Complete fed r) (hmap : r.state.schemaMap.contains schemaId = true)
    (hids : ∀ id ∈ ids, ∀ channel, r.state.pendingChannels[id]? = some channel →
      channel.schemaId = schemaId)
    (hrun : resolveAll ids r = (.ok (), r')) : Kept stream o fed r' ∧ Complete fed r' := by
  induction ids generalizing r with
  | nil =>
    cases hrun
    exact ⟨h, hc⟩
  | cons id ids ih =>
    have htail : ∀ id' ∈ ids, ∀ channel, r.state.pendingChannels[id']? = some channel →
        channel.schemaId = schemaId := fun id' hid' => hids id' (List.mem_cons_of_mem _ hid')
    rw [Recovery.resolveAll, Exec.bind_ok (Exec.get_run r)] at hrun
    cases hp : r.state.pendingChannels[id]? with
    | none =>
      simp only [hp] at hrun
      exact ih h hc hmap htail hrun
    | some channel =>
      simp only [hp] at hrun
      rw [Exec.bind_ok (Exec.modify_run _ r)] at hrun
      obtain ⟨⟨⟩, r₂, hwrite, hrest⟩ := Exec.bind_eq_ok.mp hrun
      have hfirst := h.pending hp
      have hid := firstChannel_id hfirst
      have hschema := hids id List.mem_cons_self channel hp
      obtain ⟨h₂, hpend, hsmap, hseen⟩ := (h.unpark id).writeChannelMapping
        (by rw [hid]; exact hfirst) (fun _ => by rw [hschema]; exact hmap) hwrite
      have herase : ∀ id', id' ≠ id →
          r₂.state.pendingChannels[id']? = r.state.pendingChannels[id']? := by
        intro id' hne
        rw [hpend, Std.ExtTreeMap.getElem?_erase,
          if_neg fun he => hne (BTreeMap.compare_eq_iff.mp he).symm]
      refine ih h₂ ?_ (by rw [hsmap]; exact hmap) ?_ hrest
      · intro id' hne
        by_cases he : id' = id
        · subst he
          refine .inl ?_
          rw [hseen, hid, BTreeMap.getElem?_insert_self]
          exact Option.some_ne_none _
        · rcases hc id' hne with hs | hpar
          · refine .inl ?_
            rw [hseen, hid, BTreeMap.getElem?_insert_ne _ (Ne.symm he)]
            exact hs
          · exact .inr (by rw [herase id' he]; exact hpar)
      · intro id' hid' channel' hp'
        by_cases he : id' = id
        · subst he
          rw [hpend, Std.ExtTreeMap.getElem?_erase, if_pos (BTreeMap.compare_eq_iff.mpr rfl)] at hp'
          cases hp'
        · exact htail id' hid' channel' (by rw [← herase id' he]; exact hp')

theorem schemaId_of_toResolve {state : RecoveryState} {schemaId id : UInt16}
    (hid : id ∈ toResolve state schemaId)
    (hp : state.pendingChannels[id]? = some channel) : channel.schemaId = schemaId := by
  obtain ⟨⟨id', channel'⟩, hmem, hsome⟩ := List.mem_filterMap.mp hid
  simp only [Option.ite_none_right_eq_some, Option.some.injEq] at hsome
  obtain ⟨hschema, rfl⟩ := hsome
  rw [BTreeMap.mem_toList, hp] at hmem
  cases hmem
  exact hschema

/-! ### One more record -/

theorem Kept.append (h : Kept stream o fed r) (record : Record)
    (hs : ∀ id, firstSchema (fed ++ [record]) id = firstSchema fed id) :
    Kept stream o (fed ++ [record]) r where
  sound := h.sound
  nonZero := h.nonZero
  logged := h.logged
  schemas id := (h.schemas id).trans (hs id).symm
  schemaMap hid := by
    obtain ⟨schema, hfirst, hc⟩ := h.schemaMap hid
    exact ⟨schema, firstSchema_append_of_some hfirst, hc⟩
  seen hid := firstChannel_append_of_some (h.seen hid)
  pending hid := firstChannel_append_of_some (h.pending hid)
  channelMap hid := by
    obtain ⟨channel, hfirst, hcar⟩ := h.channelMap hid
    exact ⟨channel, firstChannel_append_of_some hfirst, hcar.append record⟩
  written t ht := by
    obtain ⟨channel, hfirst, hcar⟩ := h.written t ht
    exact ⟨channel, firstChannel_append_of_some hfirst, hcar.append record⟩

omit [Encoders σ] in
theorem Complete.append (h : Complete fed r)
    (hch : ∀ id, firstChannel [record] id = none) : Complete (fed ++ [record]) r := by
  intro id hne
  refine h id fun hnone => hne ?_
  rw [firstChannel_append_of_none hnone]
  exact hch id

theorem firstSchema_append_of_nothing (hs : ∀ id, firstSchema [record] id = none) (id : UInt16) :
    firstSchema (fed ++ [record]) id = firstSchema fed id := by
  cases h : firstSchema fed id with
  | none => rw [firstSchema_append_of_none h, hs]
  | some schema => exact firstSchema_append_of_some h

omit [Encoders σ] in
theorem eprintln_run (line : String) :
    eprintln line r = (.ok (), { r with stderr := r.stderr ++ [line] }) := rfl

/-- **A schema is registered**: the first of its id, if the id is new. -/
theorem Kept.registerSchema (h : Kept stream o fed r) (hc : Complete fed r)
    {header : SchemaHeader} {data : Bytes} (ho : Orderly r (.schema header data))
    (hrun : registerSchema header.id ⟨header.name, header.encoding, data⟩ r = (.ok (), r')) :
    Kept stream o (fed ++ [.schema header data]) r' ∧
      Complete (fed ++ [.schema header data]) r' := by
  have hc' : Complete (fed ++ [.schema header data]) r := hc.append fun _ => rfl
  rw [Recovery.registerSchema, Exec.bind_ok (Exec.get_run r)] at hrun
  cases hseen : r.state.seenSchemas[header.id]? with
  | some existing =>
    have hkept := h.append (.schema header data) fun id => by
      by_cases hid : header.id = id
      · subst hid
        have hfirst := (h.schemas header.id).symm.trans hseen
        rw [hfirst, firstSchema_append_of_some hfirst]
      · cases hf : firstSchema fed id with
        | some schema => exact firstSchema_append_of_some hf
        | none =>
          rw [firstSchema_append_of_none hf, firstSchema, List.findSome?_cons]
          simp [hid]
    simp only [hseen] at hrun
    split at hrun
    · rw [eprintln_run] at hrun
      cases hrun
      exact ⟨hkept.of_eq rfl rfl rfl, hc'⟩
    · cases hrun
      exact ⟨hkept, hc'⟩
  | none =>
    simp only [hseen] at hrun
    obtain ⟨out, r₁, hadd, hrun⟩ := Exec.bind_eq_ok.mp hrun
    obtain ⟨w, hw, rfl⟩ := onWriter_eq_ok.mp hadd
    rw [Exec.bind_ok (Exec.modify_run _ _), resolvePendingChannels,
      Exec.bind_ok (Exec.get_run _)] at hrun
    have hop : (Op.addSchema header.name header.encoding data).run r.writer = (.ok (.id out), w) := by
      rw [Op.run, Reply.ofId, Exec.bind_ok hw]
      rfl
    have hz : w.NonZero := by
      have hnz := Writer.nonZero_addSchema h.sound h.nonZero (ho hseen) header.name header.encoding data
      rwa [hw] at hnz
    have hcall := h.quietCall hop hz rfl
    have hid : w.canonicalSchemas.getByLeft ⟨header.name, header.encoding, data⟩ = some out := by
      cases hknown : r.writer.canonicalSchemas.getByLeft ⟨header.name, header.encoding, data⟩ with
      | some known =>
        rw [Writer.addSchema_known hknown] at hw
        cases hw
        exact hknown
      | none => exact ((Writer.allocatesSchemas h.sound).fresh hknown hw).2.2
    have hnone : firstSchema fed header.id = none := (h.schemas header.id).symm.trans hseen
    have hnew : firstSchema (fed ++ [.schema header data]) header.id =
        some ⟨header.name, header.encoding, data⟩ := by
      rw [firstSchema_append_of_none hnone, firstSchema, List.findSome?_cons]
      simp
    refine Kept.resolveAll ?kept ?complete ?mapped
      (fun id hmem channel hp => schemaId_of_toResolve hmem hp) hrun
    case complete => exact hc'
    case kept =>
      refine ⟨hcall.sound, hcall.nonZero, hcall.logged, fun id => ?_, fun {id out'} hid' => ?_,
        fun hid' => firstChannel_append_of_some (hcall.seen hid'),
        fun hid' => firstChannel_append_of_some (hcall.pending hid'), fun hid' => ?_, fun t ht => ?_⟩
      · show (r.state.seenSchemas.insert header.id _)[id]? = _
        by_cases he : header.id = id
        · subst he
          rw [BTreeMap.getElem?_insert_self, hnew]
        · rw [BTreeMap.getElem?_insert_ne _ he, h.schemas id]
          cases hf : firstSchema fed id with
          | some schema => exact (firstSchema_append_of_some hf).symm
          | none =>
            rw [firstSchema_append_of_none hf, firstSchema, List.findSome?_cons]
            simp [he]
      · rcases BTreeMap.of_getElem?_insert hid' with ⟨rfl, rfl⟩ | hold
        · exact ⟨_, hnew, hid⟩
        · obtain ⟨schema, hfirst, hcan⟩ := hcall.schemaMap hold
          exact ⟨schema, firstSchema_append_of_some hfirst, hcan⟩
      · obtain ⟨channel, hfirst, hcar⟩ := hcall.channelMap hid'
        exact ⟨channel, firstChannel_append_of_some hfirst, hcar.append _⟩
      · obtain ⟨channel, hfirst, hcar⟩ := hcall.written t ht
        exact ⟨channel, firstChannel_append_of_some hfirst, hcar.append _⟩
    case mapped => exact (BTreeMap.contains_iff _ _).mpr ⟨out, BTreeMap.getElem?_insert_self ..⟩

/-- **A channel is registered**: the first of its id, if no other has been written or is
parked. -/
theorem Kept.registerChannel (h : Kept stream o fed r) (hc : Complete fed r)
    (ho : Orderly r (.channel channel)) (hrun : registerChannel channel r = (.ok (), r')) :
    Kept stream o (fed ++ [.channel channel]) r' ∧ Complete (fed ++ [.channel channel]) r' := by
  have hkept := h.append (.channel channel) (firstSchema_append_of_nothing fun _ => rfl)
  -- the channels that were there before are complete, but for this one
  have hother : ∀ id, channel.id ≠ id → firstChannel (fed ++ [.channel channel]) id ≠ none →
      r.state.seenChannels[id]? ≠ none ∨ r.state.pendingChannels[id]? ≠ none := by
    intro id hne hfirst
    refine hc id fun hnone => hfirst ?_
    rw [firstChannel_append_of_none hnone, firstChannel, List.findSome?_cons]
    simp [hne]
  rw [Recovery.registerChannel, Exec.bind_ok (Exec.get_run r)] at hrun
  cases hseen : r.state.seenChannels[channel.id]? with
  | some existing =>
    have hc' : Complete (fed ++ [.channel channel]) r := by
      intro id hfirst
      by_cases hid : channel.id = id
      · subst hid
        exact .inl (by rw [hseen]; exact Option.some_ne_none _)
      · exact hother id hid hfirst
    simp only [hseen] at hrun
    split at hrun
    · rw [eprintln_run] at hrun
      cases hrun
      exact ⟨hkept.of_eq rfl rfl rfl, hc'⟩
    · cases hrun
      exact ⟨hkept, hc'⟩
  | none =>
    simp only [hseen] at hrun
    -- it is the first of its id: one that is parked is the same
    have hfirst : firstChannel (fed ++ [.channel channel]) channel.id = some channel := by
      cases hp : r.state.pendingChannels[channel.id]? with
      | some pending =>
        obtain rfl := ho pending hp
        exact firstChannel_append_of_some (h.pending hp)
      | none =>
        have hnone : firstChannel fed channel.id = none := by
          by_contra hne
          rcases hc _ hne with hs | hpar
          · exact hs hseen
          · exact hpar hp
        rw [firstChannel_append_of_none hnone, firstChannel, List.findSome?_cons]
        simp
    split at hrun
    · rw [Exec.modify_run] at hrun
      cases hrun
      refine ⟨⟨hkept.sound, hkept.nonZero, hkept.logged, hkept.schemas, hkept.schemaMap, hkept.seen,
        fun hid => ?_, hkept.channelMap, hkept.written⟩, fun id hf => ?_⟩
      · rcases BTreeMap.of_getElem?_insert hid with ⟨rfl, rfl⟩ | hold
        · exact hfirst
        · exact hkept.pending hold
      · by_cases hid : channel.id = id
        · subst hid
          refine .inr ?_
          show (r.state.pendingChannels.insert channel.id channel)[channel.id]? ≠ none
          rw [BTreeMap.getElem?_insert_self]
          exact Option.some_ne_none _
        · refine (hother id hid hf).imp_right fun hp => ?_
          show (r.state.pendingChannels.insert channel.id channel)[id]? ≠ none
          rwa [BTreeMap.getElem?_insert_ne _ hid]
    · rename_i hnot
      obtain ⟨hkept', hpend, -, hs⟩ := hkept.writeChannelMapping hfirst (fun hne => by
        by_contra hmap
        exact hnot ⟨hne, Bool.eq_false_iff.mpr hmap⟩) hrun
      refine ⟨hkept', fun id hf => ?_⟩
      by_cases hid : channel.id = id
      · subst hid
        refine .inl ?_
        rw [hs, BTreeMap.getElem?_insert_self]
        exact Option.some_ne_none _
      · rw [hpend, hs, BTreeMap.getElem?_insert_ne _ hid]
        exact hother id hid hf

theorem Kept.warnMissing (h : Kept stream o fed r) {id : UInt16}
    (hrun : warnMissing id r = (.ok (), r')) :
    Kept stream o fed r' ∧ r'.state.seenChannels = r.state.seenChannels ∧
      r'.state.pendingChannels = r.state.pendingChannels := by
  rw [Recovery.warnMissing, Exec.bind_ok (Exec.get_run r)] at hrun
  split at hrun
  · cases hrun
    exact ⟨h, rfl, rfl⟩
  · rw [Exec.bind_ok (Exec.modify_run _ r)] at hrun
    have hmarked : ∀ m stderr, Kept stream o fed
        { r with state := { r.state with warnedMissingChannels := m }, stderr } := fun m stderr =>
      ⟨h.sound, h.nonZero, h.logged, h.schemas, h.schemaMap, h.seen, h.pending, h.channelMap,
        h.written⟩
    cases hp : r.state.pendingChannels[id]? <;> simp only [hp] at hrun <;>
      rw [eprintln_run] at hrun <;> cases hrun <;> exact ⟨hmarked _ _, rfl, rfl⟩

/-- **A message is recovered**: it is on the channel its id is mapped to, or left out. -/
theorem Kept.recoverMessage (h : Kept stream o fed r) {header : MessageHeader} {data : Bytes}
    (hrun : recoverMessage header data r = (.ok (), r')) :
    Kept stream o fed r' ∧ r'.state.seenChannels = r.state.seenChannels ∧
      r'.state.pendingChannels = r.state.pendingChannels := by
  rw [Recovery.recoverMessage, Exec.bind_ok (Exec.get_run r)] at hrun
  cases hmap : r.state.channelMap[header.channelId]? with
  | none =>
    simp only [hmap] at hrun
    exact h.warnMissing hrun
  | some channelId =>
    simp only [hmap] at hrun
    obtain ⟨⟨⟩, r₁, hwrite, hrun⟩ := Exec.bind_eq_ok.mp hrun
    obtain ⟨w, hw, rfl⟩ := onWriter_eq_ok.mp hwrite
    rw [Exec.modify_run] at hrun
    cases hrun
    have hop : (Op.writeToKnownChannel
        ⟨channelId, header.sequence, header.logTime, header.publishTime⟩ data).run r.writer =
          (.ok .done, w) := by
      rw [Op.run, Reply.ofUnit, Exec.bind_ok hw]
      rfl
    have hz : w.NonZero := by
      have hsame := Writer.steady_writeToKnownChannel Writer.steady_hasSchemas
        ⟨channelId, header.sequence, header.logTime, header.publishTime⟩ data r.writer
        ⟨rfl, h.sound.placed⟩
      rw [hw] at hsame
      exact h.nonZero.of_hasSchemas hsame
    have hcall := h.call (m := [⟨header,
      ⟨channelId, header.sequence, header.logTime, header.publishTime⟩, data⟩]) hop hz rfl
      (List.forall_mem_singleton.mpr (h.channelMap hmap))
    exact ⟨hcall.of_eq rfl rfl rfl, rfl, rfl⟩

theorem Kept.plainCall (h : Kept stream o fed r) (op : Op) (hsent : op.messages = [])
    {x : Exec (Writer σ Stream) McapError Unit} (hop : op.run = Reply.ofUnit x)
    (hx : ∀ m, Exec.Preserves (Writer.HasSchemas m) x) {r₁ : Recovery σ Stream}
    (hrun : onWriter x r = (.ok (), r₁)) :
    Kept stream o fed r₁ ∧ r₁.state = r.state := by
  obtain ⟨w, hw, rfl⟩ := onWriter_eq_ok.mp hrun
  have hcall : op.run r.writer = (.ok .done, w) := by
    rw [hop, Reply.ofUnit, Exec.bind_ok hw]
    rfl
  have hsame := hx _ r.writer ⟨rfl, h.sound.placed⟩
  rw [hw] at hsame
  exact ⟨h.quietCall hcall (h.nonZero.of_hasSchemas hsame) hsent, rfl⟩

omit [Encoders σ] in
theorem Complete.of_eq (h : Complete fed r) (hs : r'.state.seenChannels = r.state.seenChannels)
    (hp : r'.state.pendingChannels = r.state.pendingChannels) : Complete fed r' := by
  intro id hne
  rw [hs, hp]
  exact h id hne

/-- **One record**, by its kind. -/
theorem Kept.feed (h : Kept stream o fed r) (hc : Complete fed r) (ho : Orderly r record)
    (hrun : recoverRecord record r = (.ok (), r')) :
    Kept stream o (fed ++ [record]) r' ∧ Complete (fed ++ [record]) r' := by
  cases record with
  | schema header data => exact h.registerSchema hc ho hrun
  | channel channel => exact h.registerChannel hc ho hrun
  | message header data =>
    obtain ⟨hkept, hs, hp⟩ := h.recoverMessage hrun
    exact ⟨hkept.append _ (firstSchema_append_of_nothing fun _ => rfl),
      (hc.of_eq hs hp).append fun _ => rfl⟩
  | attachment header data crc =>
    obtain ⟨⟨⟩, r₁, hcall, hrun⟩ := Exec.bind_eq_ok.mp hrun
    obtain ⟨hkept, hstate⟩ := h.plainCall
      (.attach ⟨header.logTime, header.createTime, header.name, header.mediaType, data⟩) rfl rfl
      (fun _ => Writer.steady_attach Writer.steady_hasSchemas _) hcall
    rw [Exec.modify_run] at hrun
    cases hrun
    refine ⟨(hkept.append _ (firstSchema_append_of_nothing fun _ => rfl)).of_eq rfl rfl rfl, ?_⟩
    exact (hc.of_eq (congrArg _ hstate) (congrArg _ hstate)).append fun _ => rfl
  | metadata metadata =>
    obtain ⟨⟨⟩, r₁, hcall, hrun⟩ := Exec.bind_eq_ok.mp hrun
    obtain ⟨hkept, hstate⟩ := h.plainCall (.writeMetadata metadata) rfl rfl
      (fun _ => Writer.steady_writeMetadata Writer.steady_hasSchemas _) hcall
    rw [Exec.modify_run] at hrun
    cases hrun
    refine ⟨(hkept.append _ (firstSchema_append_of_nothing fun _ => rfl)).of_eq rfl rfl rfl, ?_⟩
    exact (hc.of_eq (congrArg _ hstate) (congrArg _ hstate)).append fun _ => rfl
  | _ =>
    cases hrun
    exact ⟨h.append _ (firstSchema_append_of_nothing fun _ => rfl), hc.append fun _ => rfl⟩

theorem kept_new (hnew : Writer.withOptions stream o = .ok w) :
    Kept stream o [] (new w) ∧ Complete [] (new w) := by
  have hsound := (Writer.Reaches.start hnew).sound
  obtain ⟨c, mode, rfl⟩ := Writer.withOptions_eq_ok hnew
  refine ⟨⟨hsound, fun content id hid => ?none, fun hs => ⟨[], .start (hs ▸ hnew), rfl⟩,
    fun _ => Std.ExtTreeMap.getElem?_empty, fun h => ?_, fun h => ?_, fun h => ?_, fun h => ?_,
    List.forall_mem_nil _⟩, fun _ h => absurd rfl h⟩
  case none => cases hid
  all_goals
    have hempty := h.symm.trans Std.ExtTreeMap.getElem?_empty
    cases hempty

/-- **What a run keeps**, by induction on the records. -/
theorem Run.kept (h : Run Orderly stream o fed r) : Kept stream o fed r ∧ Complete fed r := by
  induction h with
  | start hnew => exact kept_new hnew
  | feed record _ ho hrun ih => exact ih.1.feed ih.2 ho hrun

/-! ## A record that fails -/

/-- The messages are those of `r₀`, and the writer has gone on from there. -/
def Stays (r₀ r : Recovery σ Stream) : Prop :=
  Writer.Good r₀.writer r.writer ∧ r.written = r₀.written

variable {r₀ : Recovery σ Stream}

omit [Encoders σ] in
theorem stays_onWriter {α : Type} {x : Exec (Writer σ Stream) McapError α}
    (hx : Exec.Preserves (Writer.Good r₀.writer) x) : Exec.Preserves (Stays r₀) (onWriter x) :=
  fun r h => ⟨hx r.writer h.1, h.2⟩

omit [Encoders σ] in
theorem stays_modify {f : Recovery σ Stream → Recovery σ Stream}
    (hw : ∀ r, (f r).writer = r.writer) (hm : ∀ r, (f r).written = r.written) :
    Exec.Preserves (Stays r₀) (Exec.modify f : Exec (Recovery σ Stream) McapError Unit) := by
  intro r h
  refine ⟨?_, (hm r).trans h.2⟩
  show Writer.Good r₀.writer (f r).writer
  rw [hw]
  exact h.1

theorem stays_writeChannelMapping (channel : ChannelRecord) :
    Exec.Preserves (Stays r₀) (writeChannelMapping channel) := by
  intro r h
  rw [Recovery.writeChannelMapping, Exec.bind_ok (Exec.get_run r)]
  generalize (if channel.schemaId = 0 then some 0 else r.state.schemaMap[channel.schemaId]?) = out
  cases out with
  | none => exact h
  | some out =>
    refine Exec.Preserves.bind (stays_onWriter (Writer.preserves_addChannel _ _ _ _))
      (fun _ => ?_) r h
    exact stays_modify (fun _ => rfl) fun _ => rfl

theorem stays_resolveAll (ids : List UInt16) : Exec.Preserves (Stays r₀) (resolveAll ids) := by
  induction ids with
  | nil => exact .pure _
  | cons id ids ih =>
    intro r h
    rw [Recovery.resolveAll, Exec.bind_ok (Exec.get_run r)]
    cases hp : r.state.pendingChannels[id]? with
    | none =>
      simp only
      exact ih r h
    | some channel =>
      simp only
      refine Exec.Preserves.bind ?_ (fun _ => (stays_writeChannelMapping channel).bind fun _ => ih) r h
      exact stays_modify (fun _ => rfl) fun _ => rfl

theorem stays_registerSchema (id : UInt16) (schema : SchemaDef) :
    Exec.Preserves (Stays r₀) (registerSchema id schema) := by
  intro r h
  rw [Recovery.registerSchema, Exec.bind_ok (Exec.get_run r)]
  cases hs : r.state.seenSchemas[id]? with
  | some existing =>
    simp only
    split
    · exact h
    · exact h
  | none =>
    simp only
    refine Exec.Preserves.bind (stays_onWriter (Writer.preserves_addSchema _ _ _))
      (fun _ => Exec.Preserves.bind ?_ fun _ => ?_) r h
    · exact stays_modify (fun _ => rfl) fun _ => rfl
    · exact fun r h => stays_resolveAll _ r h

theorem stays_registerChannel (channel : ChannelRecord) :
    Exec.Preserves (Stays r₀) (registerChannel channel) := by
  intro r h
  rw [Recovery.registerChannel, Exec.bind_ok (Exec.get_run r)]
  cases hs : r.state.seenChannels[channel.id]? with
  | some existing =>
    simp only
    split
    · exact h
    · exact h
  | none =>
    simp only
    split
    · exact h
    · exact stays_writeChannelMapping channel r h

/-- **A record that fails sends no message.** -/
theorem stays_of_failed {e : McapError} (hs : r.writer.Sound)
    (hrun : recoverRecord record r = (.err e, r')) : Stays r r' := by
  have h : Stays r r := ⟨⟨hs, .refl _⟩, rfl⟩
  have hstate : r' = (recoverRecord record r).2 := by rw [hrun]
  rw [hstate]
  cases record with
  | schema header data => exact stays_registerSchema _ _ r h
  | channel channel => exact stays_registerChannel _ r h
  | attachment header data crc =>
    refine Exec.Preserves.bind (stays_onWriter (Writer.steady_attach Writer.steady_good _))
      (fun _ => ?_) r h
    exact stays_modify (fun _ => rfl) fun _ => rfl
  | metadata metadata =>
    refine Exec.Preserves.bind (stays_onWriter (Writer.steady_writeMetadata Writer.steady_good _))
      (fun _ => ?_) r h
    exact stays_modify (fun _ => rfl) fun _ => rfl
  | message header data =>
    rw [show recoverRecord (.message header data) r = recoverMessage header data r from rfl] at hrun ⊢
    rw [Recovery.recoverMessage, Exec.bind_ok (Exec.get_run r)] at hrun ⊢
    cases hmap : r.state.channelMap[header.channelId]? with
    | none =>
      simp only
      rw [Recovery.warnMissing, Exec.bind_ok (Exec.get_run r)]
      split
      · exact h
      · rw [Exec.bind_ok (Exec.modify_run _ r)]
        cases r.state.pendingChannels[header.channelId]? <;> exact h
    | some channelId =>
      -- the message joins the others only behind a call that has succeeded
      simp only [hmap] at hrun ⊢
      have hcall := stays_onWriter (Writer.steady_writeToKnownChannel Writer.steady_good
        ⟨channelId, header.sequence, header.logTime, header.publishTime⟩ data) r h
      rw [Exec.bind_run] at hrun ⊢
      rcases hw : onWriter (Writer.writeToKnownChannel
        ⟨channelId, header.sequence, header.logTime, header.publishTime⟩ data) r with
          ⟨a | e' | _, r₁⟩ <;> rw [hw] at hcall hrun
      · cases hrun
      · exact hcall
      · cases hrun
  | _ => exact h

end Recovery

/-! ## The first definitions are kept -/

namespace Recovery
variable {σ : Type} [Encoders σ] {stream : Stream} {o : WriteOptions} {fed : List Record}
  {r : Recovery σ Stream}

/-- **Each message is on a channel as it was first defined**, if no parked channel is defined
again and no schema comes when the ids are used up; so it is when the next record fails.  If the
stream does not fail, the records of the new file say the same: its messages are these, and the
definitions of their ids come before them. -/
theorem first_definitions_kept (h : Run Orderly stream o fed r) :
    (∀ t ∈ r.written, t.First r.writer.ledger fed) ∧
      (∀ record e r', recoverRecord record r = (.err e, r') →
        ∀ t ∈ r'.written, t.First r'.writer.ledger fed) ∧
      (stream = Stream.empty → ∃ j, Shows r.writer j ∧ Backed r.writer j.flat ∧
        messagesOf j.flat = r.written.map fun t => (t.sent, t.data)) := by
  obtain ⟨hkept, -⟩ := h.kept
  refine ⟨hkept.written, fun record e r' hrun t ht => ?_, fun hs => ?_⟩
  · obtain ⟨hgood, hsame⟩ := stays_of_failed hkept.sound hrun
    rw [hsame] at ht
    obtain ⟨channel, hfirst, hcar⟩ := hkept.written t ht
    exact ⟨channel, hfirst, hcar.mono hgood.grows⟩
  · obtain ⟨calls, hsession, hsent⟩ := hkept.logged hs
    obtain ⟨j, hj⟩ := hsession.faithful_of_ok (K := fun _ => True) trivial fun w op res hok =>
      ⟨hok, Op.keeps_true o op⟩
    exact ⟨j, hj.shows_, hj.backed, hj.messages.trans hsent⟩

/-- A channel without a schema, and a message on it. -/
theorem first_definitions_kept_message : ∃ r : Recovery Empty Stream,
    Run Orderly Stream.empty plainOptions
      [.channel ⟨5, 0, "a", "", ∅⟩, .message ⟨5, 0, 1, 1⟩ []] r ∧
      r.written.length = 1 ∧ ∀ t ∈ r.written, t.First r.writer.ledger
        [.channel ⟨5, 0, "a", "", ∅⟩, .message ⟨5, 0, 1, 1⟩ []] := by
  have hnew : Run Orderly Stream.empty plainOptions [] (new (_ : Writer Empty Stream)) := .start rfl
  have hchannel := hnew.feed (.channel ⟨5, 0, "a", "", ∅⟩)
    (fun _ hp => by cases hp) (Prod.ext (by decide +kernel) rfl)
  have hmessage := hchannel.feed (.message ⟨5, 0, 1, 1⟩ []) trivial
    (Prod.ext (by decide +kernel) rfl)
  exact ⟨_, hmessage, by decide +kernel, (first_definitions_kept hmessage).1⟩

theorem Run.records {records : List Record} {r' : Recovery σ Stream}
    (h : Run (fun _ _ => True) stream o fed r) (hrun : recoverRecords records r = (.ok (), r')) :
    Run (fun _ _ => True) stream o (fed ++ records) r' := by
  induction records generalizing fed r with
  | nil =>
    cases hrun
    rwa [List.append_nil]
  | cons record records ih =>
    obtain ⟨⟨⟩, r₁, hstep, hrest⟩ := Exec.bind_eq_ok.mp hrun
    have hr := ih (h.feed record trivial hstep) hrest
    rwa [List.append_assoc] at hr

/-- A channel that is parked, another of the same id, their schema, and a message. -/
def replacedChannel : List Record :=
  [.channel ⟨5, 1, "a", "", ∅⟩, .channel ⟨5, 1, "b", "", ∅⟩, .schema ⟨1, "s", ""⟩ [],
    .message ⟨5, 0, 1, 1⟩ []]

/-- **The second definition of a parked channel replaces the first**: the message is on
"b". -/
theorem pending_channel_replaced : ¬ ∀ (o : WriteOptions) (fed : List Record)
    (r : Recovery Empty Stream), Run (fun _ _ => True) Stream.empty o fed r →
      ∀ t ∈ r.written, t.First r.writer.ledger fed := by
  intro hall
  have hnew : Run (fun _ _ => True) Stream.empty plainOptions [] (new (_ : Writer Empty Stream)) :=
    .start rfl
  have hrun := hnew.records (show recoverRecords replacedChannel _ = _ from
    Prod.ext (by decide +kernel) rfl)
  obtain ⟨channel, hfirst, content, hl, htopic, -⟩ :=
    hall _ _ _ hrun ⟨⟨5, 0, 1, 1⟩, ⟨1, 0, 1, 1⟩, []⟩ (by decide +kernel)
  have hchannel : firstChannel ([] ++ replacedChannel) 5 = some ⟨5, 1, "a", "", ∅⟩ := by
    decide +kernel
  rw [hchannel] at hfirst
  cases hfirst
  have hb : content.topic = "b" := by
    have hsome : (Option.map ChannelContent.topic (some content)) = some "b" := by
      rw [← hl]
      decide +kernel
    simpa using hsome
  rw [hb] at htopic
  exact absurd htopic (by decide)

end Recovery
end Mcap

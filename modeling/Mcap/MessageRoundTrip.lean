import Mcap.Backing
import Mcap.Checksums
import Mcap.Counting
import Mcap.Definitions
import Mcap.RoundTrip
import Mcap.Streams

/-! # What is written is read back: the messages

A `MessageStream` over the file of a session yields the messages of its calls, in order, each
with the channel it was written on (`messages_round_trip`).

The proof follows the records of the file.  The accumulator of the stream `Knows` what the
records before have defined.  A definition of the data section comes once, and is taken in;
one of the summary repeats what is known, and changes nothing (`Settled`); and a message finds
its channel, because channels come before their messages.
-/
namespace Mcap

/-! ## What the accumulator knows -/

/-- The id 0 is not that of a schema, and the schemas of the channels are defined. -/
structure Definitions.Closed (d : Definitions) : Prop where
  zero : d.schemas 0 = .none
  schema : ∀ id content, d.channels id = some content →
    content.schemaId = 0 ∨ (d.schemas content.schemaId).isSome

/-- The accumulator has taken in what is defined. -/
structure ChannelAccumulator.Knows (acc : ChannelAccumulator) (d : Definitions) : Prop where
  schemas : ∀ id, acc.schemas[id]? = d.schemaAt id
  channels : ∀ id, acc.channels[id]? = d.channelAt id

section
variable {acc : ChannelAccumulator} {d : Definitions} {l : Ledger} {r : Record} {id : UInt16}
  {rs : List Record} {final : Definitions}

theorem knows_none : ChannelAccumulator.empty.Knows .none := ⟨fun _ => rfl, fun _ => rfl⟩

theorem Definitions.schemaAt_eq {content : SchemaContent}
    (h : d.schemas id = some content) : d.schemaAt id = some (content.schema id) := by
  rw [schemaAt, h, Option.map_some]

theorem Definitions.channelAt_eq {content : ChannelContent} (h : d.channels id = some content) :
    d.channelAt id = some (content.channel id (d.schemaAt content.schemaId)) := by
  rw [channelAt, h, Option.map_some]

theorem ChannelAccumulator.schemaOf_known (h : ∀ id, acc.schemas[id]? = d.schemaAt id) (hc : d.Closed)
    {chan : ChannelRecord} (href : chan.schemaId = 0 ∨ (d.schemas chan.schemaId).isSome) :
    acc.schemaOf chan = .ok (d.schemaAt chan.schemaId) := by
  rw [ChannelAccumulator.schemaOf]
  by_cases hz : chan.schemaId = 0
  · rw [if_pos hz, hz, Definitions.schemaAt, hc.zero]
    rfl
  · obtain ⟨content, hid⟩ := Option.isSome_iff_exists.mp (href.resolve_left hz)
    rw [if_neg hz, h, Definitions.schemaAt_eq hid]

theorem Definitions.Closed.schemaId (hc : d.Closed) {schemaId : UInt16}
    (href : schemaId = 0 ∨ (d.schemas schemaId).isSome) :
    ((d.schemaAt schemaId).map Schema.id).getD 0 = schemaId := by
  rcases href with rfl | hsome
  · rw [schemaAt, hc.zero]
    rfl
  · obtain ⟨content, hid⟩ := Option.isSome_iff_exists.mp hsome
    rw [schemaAt_eq hid]
    rfl

/-! ## Records that tell nothing new -/

/-- The record is taken in and changes nothing. -/
structure Settled (acc : ChannelAccumulator) (r : Record) : Prop where
  notMessage : ∀ header payload, r ≠ .message header payload
  observe : acc.observe r = .ok acc

theorem settled_schema (h : acc.Knows d) (hc : d.Closed) {content : SchemaContent}
    (hid : d.schemas id = some content) : Settled acc (content.record id) := by
  have hz : id ≠ 0 := by
    rintro rfl
    rw [hc.zero] at hid
    cases hid
  refine ⟨fun _ _ hne => (by cases hne), ?_⟩
  simp only [SchemaContent.record, ChannelAccumulator.observe, ChannelAccumulator.addSchema]
  rw [if_neg hz, h.schemas, Definitions.schemaAt_eq hid]
  exact if_pos ⟨rfl, rfl, rfl⟩

theorem settled_channel (h : acc.Knows d) (hc : d.Closed) {content : ChannelContent}
    (hid : d.channels id = some content) : Settled acc (content.record id) := by
  have href := hc.schema id content hid
  refine ⟨fun _ _ hne => (by cases hne), ?_⟩
  simp only [ChannelContent.record, ChannelAccumulator.observe, ChannelAccumulator.addChannel]
  rw [ChannelAccumulator.schemaOf_known h.schemas hc href]
  simp only [h.channels, Definitions.channelAt_eq hid]
  exact if_pos ⟨rfl, hc.schemaId href, rfl, rfl⟩

theorem collects_settled (h : ∀ r ∈ rs, r.Fits ∧ Settled acc r) :
    Collects acc (rs.map Record.raw) [] acc := by
  induction rs with
  | nil => exact .nil acc
  | cons r rs ih =>
    obtain ⟨⟨hfits, hr⟩, hrs⟩ := List.forall_mem_cons.mp h
    exact .observe (parse_body hfits) hr.notMessage hr.observe (ih hrs)

theorem Collects.append {acc₁ acc₂ : ChannelAccumulator} {evs evs' : List (UInt8 × Bytes)}
    {ms ms' : List (ChannelAccumulator × RawMessage)} (h : Collects acc evs ms acc₁)
    (h' : Collects acc₁ evs' ms' acc₂) : Collects acc (evs ++ evs') (ms ++ ms') acc₂ := by
  induction h with
  | nil => exact h'
  | message hp _ ih => exact .message hp (ih h')
  | observe hp hm hacc _ ih => exact .observe hp hm hacc (ih h')

/-! ## Records of the data section -/

theorem Definitions.Closed.step (hc : l.definitions.Closed) (hallow : l.Allows r)
    (hz : (l.step r).definitions.schemas 0 = .none) : (l.step r).definitions.Closed := by
  refine ⟨hz, fun id content hid => ?_⟩
  cases r with
  | schema header data =>
    refine (hc.schema id content hid).imp (fun hzero => hzero) fun hsome => ?_
    obtain ⟨schema, hs⟩ := Option.isSome_iff_exists.mp hsome
    exact Option.isSome_iff_exists.mpr ⟨schema, Ledger.schemas_step hallow hs⟩
  | channel channel =>
    by_cases hnew : id = channel.id
    · subst hnew
      have hcontent : Function.update l.channels channel.id _ channel.id = some content := hid
      rw [Function.update_self] at hcontent
      cases hcontent
      exact hallow.2
    · exact hc.schema id content ((Function.update_of_ne hnew _ _).symm.trans hid)
  | _ => exact hc.schema id content hid

theorem Definitions.schemaAt_withSchema (id id' : UInt16) (content : SchemaContent) :
    (d.withSchema id content).schemaAt id' =
      if id' = id then some (content.schema id) else d.schemaAt id' := by
  by_cases h : id' = id
  · subst h
    rw [if_pos rfl]
    exact schemaAt_eq (Function.update_self ..)
  · have hsame : (d.withSchema id content).schemas id' = d.schemas id' := Function.update_of_ne h _ _
    rw [if_neg h, schemaAt, hsame]
    rfl

theorem Definitions.channelAt_withChannel (id id' : UInt16) (content : ChannelContent) :
    (d.withChannel id content).channelAt id' =
      if id' = id then some (content.channel id (d.schemaAt content.schemaId))
      else d.channelAt id' := by
  by_cases h : id' = id
  · subst h
    rw [if_pos rfl]
    exact channelAt_eq (Function.update_self ..)
  · have hsame : (d.withChannel id content).channels id' = d.channels id' :=
      Function.update_of_ne h _ _
    rw [if_neg h, channelAt, hsame]
    rfl

theorem Definitions.Closed.channelAt_withSchema (hc : d.Closed) (hz : id ≠ 0)
    (hnew : d.schemas id = .none) (content : SchemaContent) (id' : UInt16) :
    (d.withSchema id content).channelAt id' = d.channelAt id' := by
  rw [channelAt, channelAt]
  cases hchannel : d.channels id' with
  | none => rw [withSchema, hchannel]; rfl
  | some channel =>
    have hne : channel.schemaId ≠ id := by
      rintro rfl
      rcases hc.schema id' channel hchannel with hzero | hsome
      · exact hz hzero
      · rw [hnew] at hsome
        cases hsome
    rw [show (d.withSchema id content).channels id' = some channel from hchannel, Option.map_some,
      Option.map_some, schemaAt_withSchema, if_neg hne]

theorem observe_schema {header : SchemaHeader} {data : Bytes} (h : acc.Knows d) (hc : d.Closed)
    (hz : header.id ≠ 0) (hnew : d.schemas header.id = none) :
    ∃ acc', acc.observe (.schema header data) = .ok acc' ∧
      acc'.Knows (d.withSchema header.id ⟨header.name, header.encoding, data⟩) := by
  have hnone : acc.schemas[header.id]? = none := by
    rw [h.schemas, Definitions.schemaAt, hnew]
    rfl
  refine ⟨{ acc with schemas := acc.schemas.insert header.id (SchemaContent.schema header.id
    ⟨header.name, header.encoding, data⟩) }, ?_, fun id => ?_, fun id => ?_⟩
  · simp only [ChannelAccumulator.observe, ChannelAccumulator.addSchema]
    rw [if_neg hz, hnone]
    rfl
  · rw [Definitions.schemaAt_withSchema]
    by_cases hid : id = header.id
    · rw [if_pos hid, hid, BTreeMap.getElem?_insert_self]
    · rw [if_neg hid, BTreeMap.getElem?_insert_ne _ (Ne.symm hid), h.schemas]
  · rw [hc.channelAt_withSchema hz hnew, h.channels]

theorem observe_channel {chan : ChannelRecord} (h : acc.Knows d) (hc : d.Closed)
    (href : chan.schemaId = 0 ∨ (d.schemas chan.schemaId).isSome)
    (hnew : d.channels chan.id = none) :
    ∃ acc', acc.observe (.channel chan) = .ok acc' ∧ acc'.Knows (d.withChannel chan.id
      ⟨chan.topic, chan.schemaId, chan.messageEncoding, chan.metadata⟩) := by
  have hnone : acc.channels[chan.id]? = none := by
    rw [h.channels, Definitions.channelAt, hnew]
    rfl
  refine ⟨{ acc with channels := acc.channels.insert chan.id (ChannelContent.channel chan.id
      ⟨chan.topic, chan.schemaId, chan.messageEncoding, chan.metadata⟩
      (d.schemaAt chan.schemaId)) }, ?_, fun id => ?_, fun id => ?_⟩
  · simp only [ChannelAccumulator.observe, ChannelAccumulator.addChannel]
    rw [ChannelAccumulator.schemaOf_known h.schemas hc href]
    simp only [hnone]
    rfl
  · exact h.schemas id
  · rw [Definitions.channelAt_withChannel]
    by_cases hid : id = chan.id
    · rw [if_pos hid, hid, BTreeMap.getElem?_insert_self]
    · rw [if_neg hid, BTreeMap.getElem?_insert_ne _ (Ne.symm hid), h.channels]

/-- **A record of the data section is taken in**, and the accumulator knows what it defines. -/
theorem observe_allowed (h : acc.Knows l.definitions) (hc : l.definitions.Closed)
    (hallow : l.Allows r) (hz : (l.step r).definitions.schemas 0 = none)
    (hm : ∀ header payload, r ≠ .message header payload) :
    ∃ acc', acc.observe r = .ok acc' ∧ acc'.Knows (l.step r).definitions := by
  cases r with
  | schema header data =>
    refine observe_schema h hc (fun hzero => ?_) hallow
    have hself : (l.step (.schema header data)).definitions.schemas header.id = some _ :=
      Function.update_self ..
    rw [hzero, hz] at hself
    cases hself
  | channel channel => exact observe_channel h hc hallow.2 hallow.1
  | message header payload => exact absurd rfl (hm header payload)
  | _ => exact ⟨acc, rfl, h⟩

/-! ## The messages of a file -/

/-- The message on a channel. -/
def messageOn (header : MessageHeader) (data : Bytes) (channel : Channel) : Message where
  channel
  sequence := header.sequence
  logTime := header.logTime
  publishTime := header.publishTime
  data

/-- A message, with the channel its id stands for. -/
def Definitions.message (d : Definitions) (m : MessageHeader × Bytes) : Option Message :=
  (d.channelAt m.1.channelId).map (messageOn m.1 m.2)

/-- What is defined in `d` is the same in `final`. -/
def Definitions.Lasts (d final : Definitions) : Prop :=
  ∀ id channel, d.channelAt id = some channel → final.channelAt id = some channel

theorem Ledger.schemas_none_of_after (h : l.AllowsAll rs)
    (hid : (l.after rs).schemas id = none) : l.schemas id = none := by
  by_contra hne
  obtain ⟨content, hs⟩ := Option.ne_none_iff_exists'.mp hne
  rw [Ledger.schemas_after h hs] at hid
  cases hid

/-- **Definitions last** as records are written. -/
theorem Ledger.lasts_step (hc : l.definitions.Closed) (hallow : l.Allows r)
    (hz : (l.step r).definitions.schemas 0 = none) :
    l.definitions.Lasts (l.step r).definitions := by
  intro id channel hid
  obtain ⟨content, hcontent, rfl⟩ := Option.map_eq_some_iff.mp hid
  rw [Definitions.channelAt_eq (Ledger.channels_step hallow hcontent)]
  rcases hc.schema id content hcontent with hzero | hsome
  · rw [hzero, Definitions.schemaAt, Definitions.schemaAt, hz, hc.zero]
  · obtain ⟨schema, hs⟩ := Option.isSome_iff_exists.mp hsome
    rw [Definitions.schemaAt_eq hs, Definitions.schemaAt_eq (Ledger.schemas_step hallow hs)]

theorem Ledger.closed_after (hc : l.definitions.Closed) (hall : l.AllowsAll rs)
    (hz : (l.after rs).definitions.schemas 0 = none) :
    (l.after rs).definitions.Closed ∧ l.definitions.Lasts (l.after rs).definitions := by
  induction rs generalizing l with
  | nil => exact ⟨hc, fun _ _ h => h⟩
  | cons r rs ih =>
    obtain ⟨hallow, hall⟩ := hall
    have hz' : (l.step r).definitions.schemas 0 = none := schemas_none_of_after hall hz
    obtain ⟨hclosed, hlasts⟩ := ih (hc.step hallow hz') hall hz
    exact ⟨hclosed, fun id channel hid => hlasts id channel (lasts_step hc hallow hz' id channel hid)⟩

theorem message_known {header : MessageHeader} {payload : Bytes} (h : acc.Knows d)
    (hlasts : d.Lasts final) (hid : (d.channels header.channelId).isSome) :
    ∃ message, acc.message ⟨header, payload⟩ = .ok message ∧
      final.message (header, payload) = some message := by
  obtain ⟨content, hcontent⟩ := Option.isSome_iff_exists.mp hid
  have hchannel := Definitions.channelAt_eq hcontent
  refine ⟨messageOn header payload (content.channel header.channelId
    (d.schemaAt content.schemaId)), ?_, ?_⟩
  · rw [ChannelAccumulator.message, ChannelAccumulator.get, h.channels, hchannel]
    rfl
  · rw [Definitions.message, hlasts _ _ hchannel]
    rfl

/-- The records `evs` are good, `sent` are the messages among them, and these are yielded with
the channels they have in `final`. -/
def Gathers (final : Definitions) (acc : ChannelAccumulator) (evs : List (UInt8 × Bytes))
    (sent : List (MessageHeader × Bytes)) (acc' : ChannelAccumulator) : Prop :=
  ∃ ms, ∃ messages : List Message, Collects acc evs ms acc' ∧
    ms.map (fun m => m.1.message m.2) = messages.map .ok ∧ sent.map final.message = messages.map some

theorem Gathers.append {acc₁ acc₂ : ChannelAccumulator} {evs evs' : List (UInt8 × Bytes)}
    {sent sent' : List (MessageHeader × Bytes)} (h : Gathers final acc evs sent acc₁)
    (h' : Gathers final acc₁ evs' sent' acc₂) :
    Gathers final acc (evs ++ evs') (sent ++ sent') acc₂ := by
  obtain ⟨ms, messages, hcol, hitems, hsent⟩ := h
  obtain ⟨ms', messages', hcol', hitems', hsent'⟩ := h'
  refine ⟨ms ++ ms', messages ++ messages', hcol.append hcol', ?_, ?_⟩
  · rw [List.map_append, List.map_append, hitems, hitems']
  · rw [List.map_append, List.map_append, hsent, hsent']

theorem gathers_settled
    (h : ∀ r ∈ rs, r.Fits ∧ Settled acc r) : Gathers final acc (rs.map Record.raw) [] acc :=
  ⟨[], [], collects_settled h, rfl, rfl⟩

/-- **The records of the data section are good**, and the messages among them find their
channels. -/
theorem gathers_records (hfits : ∀ r ∈ rs, r.Fits) (h : acc.Knows l.definitions)
    (hc : l.definitions.Closed) (hall : l.AllowsAll rs)
    (hz : (l.after rs).definitions.schemas 0 = none)
    (hlasts : (l.after rs).definitions.Lasts final) :
    ∃ acc', Gathers final acc (rs.map Record.raw) (messagesOf rs) acc' ∧
      acc'.Knows (l.after rs).definitions := by
  induction rs generalizing l acc with
  | nil => exact ⟨acc, ⟨[], [], .nil acc, rfl, rfl⟩, h⟩
  | cons r rs ih =>
    obtain ⟨hr, hrs⟩ := List.forall_mem_cons.mp hfits
    obtain ⟨hallow, hall⟩ := hall
    have hz' : (l.step r).definitions.schemas 0 = none := Ledger.schemas_none_of_after hall hz
    by_cases hm : ∃ header payload, r = .message header payload
    · obtain ⟨header, payload, rfl⟩ := hm
      have hlast := (Ledger.closed_after (l := l.step (.message header payload)) hc hall hz).2
      obtain ⟨message, hok, hmessage⟩ := message_known h
        (fun id channel hid => hlasts id channel (hlast id channel hid)) hallow
      obtain ⟨acc', ⟨ms, messages, hcol, hitems, hsent⟩, hk⟩ :=
        ih hrs (l := l.step (.message header payload)) h hc hall hz hlasts
      refine ⟨acc', ⟨_, message :: messages, .message (parse_body hr) hcol, ?_, ?_⟩, hk⟩
      · rw [List.map_cons, List.map_cons, hitems, hok]
      · rw [show messagesOf (.message header payload :: rs) = (header, payload) :: messagesOf rs from rfl,
          List.map_cons, List.map_cons, hsent, hmessage]
    · have hm : ∀ header payload, r ≠ .message header payload := fun a b hne => hm ⟨a, b, hne⟩
      obtain ⟨acc₁, hobs, hk₁⟩ := observe_allowed h hc hallow hz' hm
      obtain ⟨acc', ⟨ms, messages, hcol, hitems, hsent⟩, hk⟩ :=
        ih hrs hk₁ (hc.step hallow hz') hall hz hlasts
      refine ⟨acc', ⟨ms, messages, .observe (parse_body hr) hm hobs hcol, hitems, ?_⟩, hk⟩
      rw [← hsent]
      cases r with
      | message header payload => exact absurd rfl (hm header payload)
      | _ => rfl

variable {o : WriteOptions} {es : List Entry}

/-- **The entries of a file are good.** -/
theorem gathers_entries (hfits : ∀ r ∈ es.flatMap (Entry.yielded o), r.Fits)
    (h : acc.Knows l.definitions) (hc : l.definitions.Closed)
    (hall : l.AllowsAll (es.flatMap Entry.flat))
    (hz : (l.after (es.flatMap Entry.flat)).definitions.schemas 0 = none)
    (hlasts : (l.after (es.flatMap Entry.flat)).definitions.Lasts final) :
    ∃ acc', Gathers final acc ((es.flatMap (Entry.yielded o)).map Record.raw)
        (messagesOf (es.flatMap Entry.flat)) acc' ∧
      acc'.Knows (l.after (es.flatMap Entry.flat)).definitions := by
  induction es generalizing l acc with
  | nil => exact ⟨acc, ⟨[], [], .nil acc, rfl, rfl⟩, h⟩
  | cons e es ih =>
    rw [List.flatMap_cons, List.forall_mem_append] at hfits
    rw [List.flatMap_cons, Ledger.allowsAll_append] at hall
    rw [List.flatMap_cons, Ledger.after_append] at hz hlasts
    rw [List.flatMap_cons, List.flatMap_cons, List.map_append, messagesOf_append, Ledger.after_append]
    have hz' : (l.after e.flat).definitions.schemas 0 = none :=
      Ledger.schemas_none_of_after hall.2 hz
    obtain ⟨hclosed, -⟩ := Ledger.closed_after hc hall.1 hz'
    have hlast := (Ledger.closed_after hclosed hall.2 hz).2
    have hlast' : (l.after e.flat).definitions.Lasts final :=
      fun id channel hid => hlasts id channel (hlast id channel hid)
    have hone : ∃ acc₁, Gathers final acc ((e.yielded o).map Record.raw) (messagesOf e.flat) acc₁ ∧
        acc₁.Knows (l.after e.flat).definitions := by
      cases e with
      | record r => exact gathers_records hfits.1 h hc hall.1 hz' hlast'
      | chunk records out =>
        obtain ⟨hrecords, hindexes⟩ := List.forall_mem_append.mp hfits.1
        obtain ⟨acc₁, hg, hk⟩ := gathers_records hrecords h hc hall.1 hz' hlast'
        -- the message indexes behind the chunk tell nothing new
        have hsettled : ∀ r ∈ indexRecords o records, r.Fits ∧ Settled acc₁ r := by
          intro r hr
          refine ⟨hindexes r hr, ?_⟩
          obtain ⟨e, -, rfl⟩ := List.mem_map.mp hr
          exact ⟨fun _ _ hne => (by cases hne), rfl⟩
        have happ := hg.append (gathers_settled hsettled)
        rw [← List.map_append, List.append_nil] at happ
        exact ⟨acc₁, happ, hk⟩
    obtain ⟨acc₁, hg, hk⟩ := hone
    obtain ⟨acc', hg', hk'⟩ := ih hfits.2 hk hclosed hall.2 hz hlasts
    exact ⟨acc', hg.append hg', hk'⟩

end

/-! ## The summary -/

/-- What the summary repeats of the record fits. -/
def Record.FitsSummary : Record → Prop
  | .schema h data => StringFits h.name ∧ StringFits h.encoding ∧ data.length < 2 ^ 32
  | .channel c => StringFits c.topic ∧ StringFits c.messageEncoding ∧ StringMapFits c.metadata
  | .attachment h _ _ => StringFits h.name ∧ StringFits h.mediaType
  | .metadata m => StringFits m.name
  | _ => True

theorem Record.Fits.summary {r : Record} (h : r.Fits) : r.FitsSummary := by
  cases r with
  | schema | channel => exact h
  | attachment => exact ⟨h.1, h.2.1⟩
  | metadata => exact h.1
  | _ => trivial

section
variable {σ : Type} [Encoders σ] {w : Writer σ Stream} {o : WriteOptions} {es : List Entry}
  {acc : ChannelAccumulator} {d : Definitions} {schemas : BTreeMap UInt16 Schema}
  {channels : BTreeMap UInt16 Channel}

omit [Encoders σ] in
theorem summary_settled (hbooked : Booked w es) (hopts : w.options = o)
    (hd : w.ledger.definitions = d) (hs : w.summarySchemas = some schemas)
    (hch : w.summaryChannels schemas = some channels)
    (hfits : ∀ r ∈ es.flatMap Entry.flat, r.FitsSummary)
    (hledger : w.ledger = Ledger.empty.after (es.flatMap Entry.flat)) (h : acc.Knows d)
    (hc : d.Closed) (order : HashOrder) :
    ∀ r ∈ groupRecords (summaryGroups o order (w.summaryWith schemas channels)),
      r.Fits ∧ Settled acc r := by
  subst hd
  have hflat : ∀ e ∈ placedEntries o es, ∀ r ∈ e.2.flat, r.FitsSummary := fun e he r hr =>
    hfits r (List.mem_flatMap.mpr ⟨e.2, mem_of_withOffsets he, hr⟩)
  refine forall_summaryGroups ?_ ?_ ?_ ?_ ?_ ?_
  · intro id schema hid
    obtain ⟨content, hcontent, rfl⟩ :=
      Option.map_eq_some_iff.mp ((Writer.summarySchemas_eq hs id).symm.trans hid)
    have hback : (Ledger.empty.after (es.flatMap Entry.flat)).schemas id = some content := by
      rw [← hledger]
      exact hcontent
    exact ⟨hfits _ (Ledger.record_of_schemas hback), settled_schema h hc hcontent⟩
  · intro id channel hid
    obtain ⟨content, hcontent, rfl⟩ :=
      Option.map_eq_some_iff.mp ((Writer.summaryChannels_eq hs hch id).symm.trans hid)
    have hrecord : Summary.channelRecord (id, content.channel id
        (w.ledger.definitions.schemaAt content.schemaId)) = content.record id := by
      simp only [Summary.channelRecord, ChannelContent.channel, ChannelContent.record,
        hc.schemaId (hc.schema id content hcontent)]
    rw [hrecord]
    have hback : (Ledger.empty.after (es.flatMap Entry.flat)).channels id = some content := by
      rw [← hledger]
      exact hcontent
    exact ⟨hfits _ (Ledger.record_of_channels hback), settled_channel h hc hcontent⟩
  · exact fun stats _ => ⟨trivial, fun _ _ hne => (by cases hne), rfl⟩
  · intro i hi
    rw [show (w.summaryWith schemas channels).chunkIndexes = w.chunkIndexes from rfl,
      hbooked.chunkIndexes] at hi
    obtain ⟨⟨pos, e⟩, -, hi⟩ := List.mem_filterMap.mp hi
    refine ⟨?_, fun _ _ hne => (by cases hne), rfl⟩
    cases e with
    | record r => cases hi
    | chunk records out =>
      cases hi
      exact stringFits_compressionName _
  · intro i hi
    rw [show (w.summaryWith schemas channels).attachmentIndexes = w.attachmentIndexes from rfl,
      hbooked.attachmentIndexes, hopts] at hi
    split at hi
    · obtain ⟨⟨pos, e⟩, he, hi⟩ := List.mem_filterMap.mp hi
      refine ⟨?_, fun _ _ hne => (by cases hne), rfl⟩
      cases e with
      | chunk records out => cases hi
      | record r =>
        have hr := hflat _ he r List.mem_cons_self
        cases r with
        | attachment header data crc =>
          cases hi
          exact hr
        | _ => cases hi
    · cases hi
  · intro i hi
    rw [show (w.summaryWith schemas channels).metadataIndexes = w.metadataIndexes from rfl,
      hbooked.metadataIndexes, hopts] at hi
    split at hi
    · obtain ⟨⟨pos, e⟩, he, hi⟩ := List.mem_filterMap.mp hi
      refine ⟨?_, fun _ _ hne => (by cases hne), rfl⟩
      cases e with
      | chunk records out => cases hi
      | record r =>
        have hr := hflat _ he r List.mem_cons_self
        cases r with
        | metadata metadata =>
          cases hi
          exact hr
        | _ => cases hi
    · cases hi

end

/-! ## The messages of a session -/

/-- The messages that a successful call writes, with the channels that are defined in `d`. -/
def Definitions.sent (d : Definitions) : Op × Res McapError Reply → List Message
  | (.write message, .ok _) => [message]
  | (.writeToKnownChannel header data, .ok _) => (d.message (header, data)).toList
  | _ => []

/-- **The messages of a session**, in the order in which they are written.  An id stands for
the channel that the calls define it as. -/
def sentMessages (calls : List (Op × Res McapError Reply)) : List Message :=
  calls.flatMap (definitionsOf calls).sent

section
variable {σ : Type} [Encoders σ] {w w' : Writer σ Stream} {o : WriteOptions}
  {calls : List (Op × Res McapError Reply)} {order : HashOrder} {summary : Summary}

theorem channelAt_of_registered {l : Ledger} {channel : Channel} (hz : l.schemas 0 = none)
    (h : Writer.Registered l channel) : l.definitions.channelAt channel.id = some channel := by
  obtain ⟨hchannel, hschema⟩ := h
  rw [Definitions.channelAt_eq hchannel]
  have hs : l.definitions.schemaAt channel.content.schemaId = channel.schema := by
    rcases hsch : channel.schema with _ | schema
    · simp only [Channel.content, hsch, Definitions.schemaAt, Ledger.definitions, Option.map_none,
        Option.getD_none, hz]
    · have hid : channel.content.schemaId = schema.id := by simp [Channel.content, hsch]
      rw [hid, Definitions.schemaAt_eq (hschema schema hsch)]
      rfl
  rw [hs]
  rfl

theorem sentMessages_eq {l : Ledger} (hd : l.definitions = definitionsOf calls)
    (hz : l.schemas 0 = none) (hknown : ChannelsKnown l calls) :
    sentMessages calls = (sentBy calls).filterMap l.definitions.message := by
  rw [sentMessages, sentBy, List.filterMap_flatMap, ← hd]
  refine flatMap_eq_flatMap fun c hc => ?_
  obtain ⟨op, res⟩ := c
  rcases res with reply | e | _
  · cases op with
    | write message =>
      have hchannel := channelAt_of_registered hz (hknown message reply hc)
      have hmessage : l.definitions.message (Writer.messageHeader message, message.data) =
          some message := by
        rw [Definitions.message, show (Writer.messageHeader message).channelId = message.channel.id
          from rfl, hchannel]
        rfl
      simp only [Definitions.sent, posted, Op.messages, List.filterMap_cons, hmessage,
        List.filterMap_nil]
    | writeToKnownChannel header data =>
      simp only [Definitions.sent, posted, Op.messages, List.filterMap_cons, List.filterMap_nil]
      cases l.definitions.message (header, data) <;> rfl
    | _ => rfl
  · cases op <;> rfl
  · cases op <;> rfl

/-- The message indexes of the chunks fit. -/
def IndexesFit (o : WriteOptions) (es : List Entry) : Prop :=
  ∀ records out, .chunk records out ∈ es → ∀ r ∈ indexRecords o records, r.Fits

theorem fits_yielded {es : List Entry} (hflat : ∀ r ∈ es.flatMap Entry.flat, r.Fits)
    (hindexes : IndexesFit o es) : ∀ r ∈ es.flatMap (Entry.yielded o), r.Fits := by
  intro r hr
  obtain ⟨e, he, hr⟩ := List.mem_flatMap.mp hr
  cases e with
  | record r' => exact hflat r (List.mem_flatMap.mpr ⟨_, he, hr⟩)
  | chunk records out =>
    rcases List.mem_append.mp hr with hrecord | hindex
    · exact hflat r (List.mem_flatMap.mpr ⟨_, he, hrecord⟩)
    · exact hindexes records out he r hindex

theorem Writer.Session.messages_read {δ : Type} {D : Decompressor δ} {Δ : Decoding D none}
    (hsession : Writer.Session (fun _ op res => (∃ reply, res = .ok reply) ∧ op.Keeps Record.Fits o)
      o calls w)
    (hl : Lossless σ Δ) (hheader : (fileHeader o).Fits) (hzero : (definitionsOf calls).schemas 0 = none)
    (hfin : Writer.finish order w = (.ok summary, w')) :
    ∃ es, w'.Produced (fileBytes o es (summaryGroups o order summary)) ∧
      (∀ records out, .chunk records out ∈ es → Packs σ o records out) ∧
      (InMemory o es (summaryGroups o order summary) → IndexesFit o es →
        Drains (MessageStream.next D)
          (RawMessageStream.new false (fileBytes o es (summaryGroups o order summary)))
          ((sentMessages calls).map .ok) .finished) := by
  obtain ⟨j, hj⟩ := hsession.faithful_of_ok hheader fun _ _ _ hp => hp
  have hd := definitionsOf_calls hsession fun _ _ _ hp => hp.1
  obtain ⟨w₁, es, schemas, channels, -, hrec, hflat, hcore, hs, hch, rfl, hfile⟩ :=
    hj.recorded.finish hfin
  have hpacked := hrec.shows_.packed
  rw [hrec.options] at hpacked
  refine ⟨es, hfile, hpacked, fun hmem hindexes => ?_⟩
  have hledger : w₁.ledger = w.ledger := Writer.ledger_of_core hcore
  have hafter : w₁.ledger = Ledger.empty.after (es.flatMap Entry.flat) := by
    rw [hledger, hj.ledger, hflat]
  have hall : Ledger.empty.AllowsAll (es.flatMap Entry.flat) := by
    rw [hflat]
    exact hj.allowed
  have hfits : ∀ r ∈ es.flatMap Entry.flat, r.Fits := by
    rw [hflat]
    exact hj.kept
  have hz : (Ledger.empty.after (es.flatMap Entry.flat)).definitions.schemas 0 = none := by
    rw [← hafter, hledger, hd, hzero]
  -- the records of the data section are good, and those of the summary are settled
  have hempty : Ledger.empty.definitions.Closed := ⟨rfl, fun _ _ h => by cases h⟩
  obtain ⟨hclosed, -⟩ := Ledger.closed_after hempty hall hz
  obtain ⟨acc, hdata, hk⟩ := gathers_entries (fits_yielded hfits hindexes) knows_none hempty hall hz
    fun _ _ h => h
  rw [← hafter] at hk hclosed
  have hsummary : ∀ r ∈ dataEndOf o es :: (summaryRecords o
      (dataBytes o es ++ (dataEndOf o es).frame).length
      (summaryGroups o order (w₁.summaryWith schemas channels)) ++
      [.footer (footerOf o (dataBytes o es ++ (dataEndOf o es).frame).length
        (summaryGroups o order (w₁.summaryWith schemas channels)))]), r.Fits ∧ Settled acc r := by
    refine List.forall_mem_cons.mpr ⟨⟨trivial, fun _ _ hne => (by cases hne), rfl⟩,
      List.forall_mem_append.mpr ⟨List.forall_mem_append.mpr ⟨?_, ?_⟩,
        List.forall_mem_singleton.mpr ⟨trivial, fun _ _ hne => (by cases hne), rfl⟩⟩⟩
    · exact summary_settled hrec.shows_.booked hrec.options rfl hs hch
        (fun r hr => (hfits r hr).summary) hafter hk hclosed order
    · intro r hr
      unfold offsetRecords at hr
      split at hr
      · obtain ⟨i, -, rfl⟩ := List.mem_map.mp hr
        exact ⟨trivial, fun _ _ hne => (by cases hne), rfl⟩
      · cases hr
  obtain ⟨ms, messages, hcol, hitems, hsent⟩ := hdata.append (gathers_settled hsummary)
  -- the messages that are yielded are those of the calls
  have hmessages : messages = sentMessages calls := by
    rw [List.append_nil, hflat, hj.messages, ← hflat, ← hafter, hledger] at hsent
    rw [sentMessages_eq hd (by rw [← hzero, ← hd]; rfl) hj.channels]
    have hfilter := congrArg (List.filterMap id) hsent
    rw [List.filterMap_map, List.filterMap_map, Function.id_comp, Function.id_comp,
      List.filterMap_some] at hfilter
    exact hfilter.symm
  have hobs : Observes D (LinearReader.newWithOptions (crcOptions true false false false)) _ _ _ :=
    file_observed hl hpacked hall.plain hmem fun hne => by cases hne
  have hdrains : Drains (MessageStream.next D) (RawMessageStream.new false _) _ _ :=
    RawMessageStream.drains hobs .empty
  rw [fileRecords, List.map_append, streamItems_collects hcol, hitems, hmessages] at hdrains
  exact hdrains

/-- **Round trip of messages.**  All calls of a session succeed, their strings, maps and
arrays fit, and no schema gets the id 0.  Then a `MessageStream` over the file yields the
messages of the calls, in order, on the channels they were written on, and no error. -/
theorem messages_round_trip {δ : Type} {D : Decompressor δ} {Δ : Decoding D none}
    (hl : Lossless σ Δ)
    (hsession : Writer.Session (fun _ op res => (∃ reply, res = .ok reply) ∧ op.Keeps Record.Fits o)
      o calls w)
    (hheader : (fileHeader o).Fits) (hzero : (definitionsOf calls).schemas 0 = none)
    (hfin : Writer.finish order w = (.ok summary, w')) :
    ∃ es, w'.Produced (fileBytes o es (summaryGroups o order summary)) ∧
      (∀ records out, .chunk records out ∈ es → Packs σ o records out) ∧
      (InMemory o es (summaryGroups o order summary) → IndexesFit o es →
        Drains (MessageStream.next D)
          (RawMessageStream.new false (fileBytes o es (summaryGroups o order summary)))
          ((sentMessages calls).map .ok) .finished) :=
  hsession.messages_read hl hheader hzero hfin

end

theorem inMemory_of_plain {o : WriteOptions} {es : List Entry} {groups : List Group}
    (hcomp : o.compression = none)
    (hp : ∀ records out, .chunk records out ∈ es → Packs Empty o records out)
    (hfile : (fileBytes o es groups).length ≤ ISIZE_MAX) : InMemory o es groups := by
  refine ⟨hfile, fun records out hmem => ?_⟩
  obtain ⟨coder, emitted, x, hran, hx, rfl⟩ := hp records out hmem
  have htook := hran.took
  rw [hcomp] at htook
  obtain ⟨rfl, rfl⟩ := htook.plain
  cases hx
  have hentry := length_bytes_le (o := o) hmem
  rw [Entry.bytes_chunk, List.length_append, Record.frame, length_frame, closedChunk, Record.body,
    List.length_append, List.length_append] at hentry
  rw [fileBytes, List.append_assoc, List.append_assoc, List.append_assoc, List.length_append] at hfile
  omega

/-- Chunks, and everything repeated in the summary. -/
def repeatOptions : WriteOptions :=
  { plainOptions with useChunks := true, repeatSchemas := true, repeatChannels := true }

/-- A message that brings its own channel. -/
def secondMessage : Message := { bareMessage with channel := { bareMessage.channel with id := 2 } }

/-- A message on a channel that has been added, and one that brings its own channel. -/
def twoMessages : List Op :=
  [.addSchema "s" "" [1], .addChannel 1 "t" "" ∅,
    .writeToKnownChannel { channelId := 1, sequence := 0, logTime := 5, publishTime := 5 } [7],
    .write secondMessage]

/-- The message on the channel that has been added. -/
def addedMessage : Message where
  channel :=
    { id := 1, topic := "t", schema := some ⟨1, "s", "", [1]⟩, messageEncoding := "", metadata := ∅ }
  sequence := 0
  logTime := 5
  publishTime := 5
  data := [7]

/-- A file with two messages in a chunk. -/
theorem messages_round_trip_two : ∃ (calls : List (Op × Res McapError Reply))
    (w w' : Writer Empty Stream) (summary : Summary) (bytes : Bytes),
    Writer.Session (fun _ op res => (∃ reply, res = .ok reply) ∧ op.Keeps Record.Fits repeatOptions)
        repeatOptions calls w ∧ calls.map Prod.fst = twoMessages ∧
      Writer.finish .byId w = (.ok summary, w') ∧ w'.Produced bytes ∧
      Drains (MessageStream.next storedLz4) (RawMessageStream.new false bytes)
        [.ok addedMessage, .ok secondMessage] .finished := by
  have hstart : Writer.Session
    (fun _ op res => (∃ reply, res = .ok reply) ∧ op.Keeps Record.Fits repeatOptions)
    repeatOptions [] (_ : Writer Empty Stream) := .start rfl
  have hkeeps : ∀ op ∈ twoMessages, op.Keeps Record.Fits repeatOptions := by
    have hstring : StringFits "" ∧ StringFits "s" ∧ StringFits "t" := by decide
    refine List.forall_mem_cons.mpr ⟨fun _ => ⟨hstring.2.1, hstring.1, by decide⟩,
      List.forall_mem_cons.mpr ⟨fun _ => ⟨hstring.2.2, hstring.1, stringMapFits_empty⟩,
        List.forall_mem_cons.mpr ⟨trivial, List.forall_mem_singleton.mpr ⟨fun s hs => ?_,
          ⟨hstring.2.2, hstring.1, stringMapFits_empty⟩, trivial⟩⟩⟩⟩
    cases hs
  have hrun : ∃ calls w, Writer.Session
      (fun _ op res => (∃ reply, res = .ok reply) ∧ op.Keeps Record.Fits repeatOptions)
      repeatOptions calls w ∧ calls.map Prod.fst = twoMessages ∧
      (definitionsOf calls).schemas 0 = none ∧ sentMessages calls = [addedMessage, secondMessage] ∧
      (Writer.finish .byId (w : Writer Empty Stream)).1.isOk = true ∧
      (Writer.finish .byId (w : Writer Empty Stream)).2.bytes.all (·.length ≤ ISIZE_MAX) = true :=
    ⟨_, _, hstart.runAllOk hkeeps (by decide +kernel), List.map_fst_zip (by decide +kernel),
      by decide +kernel, by decide +kernel, by decide +kernel, by decide +kernel⟩
  obtain ⟨calls, w, hsession, hops, hzero, hsent, hok, hlen⟩ := hrun
  obtain ⟨summary, w', hfin⟩ := Res.exists_of_isOk hok
  obtain ⟨es, hfile, hpacked, hdrains⟩ := messages_round_trip lossless_empty hsession
    ⟨by decide, by decide⟩ hzero hfin
  rw [hfin, hfile.bytes_eq] at hlen
  have hmem := inMemory_of_plain rfl hpacked (of_decide_eq_true hlen)
  have hindexes : IndexesFit repeatOptions es := fun records out _ r hr => by cases hr
  have hitems := hdrains hmem hindexes
  rw [hsent] at hitems
  exact ⟨calls, w, w', summary, _, hsession, hops, hfin, hfile, hitems⟩

end Mcap

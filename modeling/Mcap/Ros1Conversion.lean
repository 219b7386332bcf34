import Mcap.MessageRoundTrip
import Mcap.Ros1BagFormat
import Mcap.StoredCodec
import Mcap.Succeeding

/-! # What a converted bag holds

The conversion finds the schema of a connection by its type and its md5sum: connections that
share these share the schema of the first of them.  The writer identifies a schema by its
content.  So a message is refused if the definition of its connection is not that of the first
one with its key (`Converted.message_refused`), and it is written otherwise.

`Converted` is what holds of the writer and the state along the events of a bag.
-/
namespace Mcap

/-! ## Bags that can be converted -/

/-- The key of its schema. -/
def BagConnection.key (d : BagConnection) : SchemaKey := ⟨d.msgType, d.md5sum⟩

/-- The schema of a connection. -/
def BagConnection.content (d : BagConnection) : SchemaContent := ⟨d.msgType, "ros1msg", d.definition⟩

/-- The first connection with this key. -/
def firstWith (ds : List BagConnection) (key : SchemaKey) : Option BagConnection :=
  ds.find? fun d => d.key = key

/-- **The events of a well-formed bag**: its connections have ids of 16 bits, each always
described the same, its messages refer to earlier connections, and there are ids for its
schemas. -/
structure BagSound (evs : List BagEvent) : Prop where
  ids : ∀ d ∈ bagConnections evs, d.conn.toNat < 2 ^ 16
  same : ∀ d ∈ bagConnections evs, ∀ d' ∈ bagConnections evs, d.conn = d'.conn → d = d'
  earlier : ∀ pre m post, evs = pre ++ .message m :: post → ∃ d ∈ bagConnections pre, d.conn = m.conn
  schemas : ((bagConnections evs).map BagConnection.content).dedup.length ≤ 65535

/-- **What the conversion asks of an event**: sections and chunks are not too long, and the
connection of a message has the definition of the first one with its key. -/
def BagEvent.Convertible (ds : List BagConnection) : BagEvent → Prop
  | .sizes header data => header ≤ MAX_RECORD_SECTION_SIZE ∧ data ≤ MAX_RECORD_SECTION_SIZE
  | .chunk size => size ≤ MAX_RECORD_SECTION_SIZE
  | .connection _ => True
  | .message m => ∀ d ∈ ds, d.conn = m.conn → ∀ d', firstWith ds d.key = some d' →
      d'.definition = d.definition

/-- **The message in the output is the `n`-th one of the bag.** -/
structure Carried (ds : List BagConnection) (n : Nat) (m : BagMessage) (message : Message) :
    Prop where
  logTime : message.logTime.toNat = m.secs.toNat * 1000000000 + m.nsecs.toNat
  publishTime : message.publishTime = message.logTime
  sequence : message.sequence.toNat = n % 2 ^ 32
  data : message.data = m.data
  channelId : message.channel.id.toNat = m.conn.toNat
  connection : ∃ d ∈ ds, d.conn = m.conn ∧ message.channel.topic = d.topic ∧
    ∃ schema, message.channel.schema = some schema ∧ schema.name = d.msgType ∧
      schema.data = d.definition

/-- The messages in the output are those of the bag, in order. -/
def CarriedAll (ds : List BagConnection) (ms : List BagMessage) (messages : List Message) : Prop :=
  List.Forall₂ (fun m message => Carried ds m.2 m.1 message) ms.zipIdx messages

theorem bagConnections_append (evs evs' : List BagEvent) :
    bagConnections (evs ++ evs') = bagConnections evs ++ bagConnections evs' := List.filterMap_append ..

theorem bagMessages_append (evs evs' : List BagEvent) :
    bagMessages (evs ++ evs') = bagMessages evs ++ bagMessages evs' := List.filterMap_append ..

variable {ds : List BagConnection} {d : BagConnection}

theorem firstWith_key {key : SchemaKey} (h : firstWith ds key = some d) : d ∈ ds ∧ d.key = key := by
  rw [firstWith] at h
  have hkey := List.find?_some h
  exact ⟨List.mem_of_find?_eq_some h, by simpa using hkey⟩

theorem exists_firstWith (h : d ∈ ds) :
    ∃ d', firstWith ds d.key = some d' := by
  exact Option.isSome_iff_exists.mp (List.find?_isSome.mpr ⟨d, h, decide_eq_true rfl⟩)

theorem firstWith_append {key : SchemaKey} (h : firstWith ds key = some d)
    (ds' : List BagConnection) :
    firstWith (ds ++ ds') key = some d := by
  rw [firstWith, List.find?_append, ← firstWith, h]
  rfl

theorem Carried.mono {ds' : List BagConnection} {n : Nat} {m : BagMessage} {message : Message}
    (h : Carried ds n m message) (hsub : ds ⊆ ds') : Carried ds' n m message := by
  obtain ⟨d, hd, hrest⟩ := h.connection
  exact ⟨h.logTime, h.publishTime, h.sequence, h.data, h.channelId, d, hsub hd, hrest⟩

theorem CarriedAll.mono {ds' : List BagConnection} {ms : List BagMessage} {messages : List Message}
    (h : CarriedAll ds ms messages) (hsub : ds ⊆ ds') :
    CarriedAll ds' ms messages := List.Forall₂.imp (fun _ _ hc => hc.mono hsub) h

theorem CarriedAll.push {ms : List BagMessage} {messages : List Message}
    (h : CarriedAll ds ms messages) {m : BagMessage} {message : Message}
    (hm : Carried ds ms.length m message) : CarriedAll ds (ms ++ [m]) (messages ++ [message]) := by
  rw [CarriedAll, List.zipIdx_append]
  refine List.rel_append h (.cons ?_ .nil)
  rwa [Nat.zero_add]

/-! ## Along the events -/

section
variable {σ : Type} [Encoders σ] {o : WriteOptions} {ds : List BagConnection} {ms : List BagMessage}
  {c : Conversion σ} {d : BagConnection} {m : BagMessage} {w : Writer σ Stream} {d' : BagConnection}
  {c' : Conversion σ} {evs : List BagEvent}

/-- The calls succeed, and what they write fits. -/
def GoodCall (o : WriteOptions) (_ : Writer σ Stream) (op : Op) (res : Res McapError Reply) : Prop :=
  (∃ reply, res = .ok reply) ∧ op.Keeps Record.Fits o

/-- The calls have written these messages of the bag. -/
def HasWritten (o : WriteOptions) (ds : List BagConnection) (ms : List BagMessage)
    (w : Writer σ Stream) : Prop :=
  ∃ calls messages, Writer.Session (GoodCall o) o calls w ∧
    (∀ defs : Definitions, calls.flatMap defs.sent = messages) ∧ CarriedAll ds ms messages

/-- **The writer and the state** after the connections `ds` and the messages `ms`, but for the
connections in the state.  A key has the schema of the first connection with it; a channel is
that of a connection, and its schema the one of its key. -/
structure Converted (o : WriteOptions) (ds : List BagConnection) (ms : List BagMessage)
    (c : Conversion σ) : Prop where
  written : HasWritten o ds ms c.1
  isOpen : ∃ j, Shows c.1 j ∧ j.Open
  sound : c.1.Sound
  counted : c.1.Counted
  sequence : c.2.sequence = .ofNat ms.length
  first : ∀ {key d}, firstWith ds key = some d →
    ∃ id, c.2.schemas[key]? = some id ∧ c.1.ledger.schemas id = some d.content
  absent : ∀ {key}, firstWith ds key = none → c.2.schemas[key]? = none
  known : ∀ {id content}, c.1.ledger.schemas id = some content →
    id ≠ 0 ∧ content ∈ ds.map BagConnection.content
  different : ∀ {id id' content}, c.1.ledger.schemas id = some content →
    c.1.ledger.schemas id' = some content → id = id'
  channels : ∀ {id content}, c.1.ledger.channels id = some content →
    ∃ d ∈ ds, d.conn.toNat = id.toNat ∧
      ∃ schemaId, c.2.schemas[d.key]? = some schemaId ∧ content = (d.channel id schemaId).content

/-- The connections in the state. -/
def ConversionState.Connects (ds : List BagConnection) (st : ConversionState) : Prop :=
  ∀ d ∈ ds, ∃ id, st.schemas[d.key]? = some id ∧
    st.connections[d.conn]? = some (d.channel (.ofNat d.conn.toNat) id)

omit [Encoders σ] in
theorem ConversionState.Connects.channel {st : ConversionState} (h : st.Connects ds) (hd : d ∈ ds)
    (hm : d.conn = m.conn) : ∃ id, st.schemas[d.key]? = some id ∧
      st.connections[m.conn]? = some (d.channel (.ofNat d.conn.toNat) id) := by
  obtain ⟨id, hkey, hchannel⟩ := h d hd
  rw [hm] at hchannel
  rw [hm]
  exact ⟨id, hkey, hchannel⟩

omit [Encoders σ] in
/-- **There is an id for a new schema**, as not all of them are in use. -/
theorem exists_free_id {contents : List SchemaContent} (hs : w.Sound)
    (hknown : ∀ {id content}, w.ledger.schemas id = some content → content ∈ contents)
    (hdiff : ∀ {id id' content}, w.ledger.schemas id = some content →
      w.ledger.schemas id' = some content → id = id') (hlen : contents.dedup.length ≤ 65535)
    {content : SchemaContent} (hmem : content ∈ contents)
    (hnew : w.canonicalSchemas.getByLeft content = none) :
    ∃ id, id ≠ 0 ∧ ¬ w.allSchemaIds.contains id = true := by
  by_contra hall
  push Not at hall
  -- the contents of all ids and the new one are different
  have hcontent : ∀ n < 65535, ∃ content, w.ledger.schemas (.ofNat (n + 1)) = some content := by
    intro n hn
    refine Option.isSome_iff_exists.mp (hs.schemas.isSome_contentOf (hall _ fun hzero => ?_))
    have hnat := congrArg UInt16.toNat hzero
    rw [UInt16.toNat_ofNat_of_lt' (show n + 1 < 2 ^ 16 by omega)] at hnat
    cases hnat
  have hnotin : ∀ id, w.ledger.schemas id ≠ some content := by
    intro id hid
    obtain ⟨c, -, hc⟩ := Option.bind_eq_some_iff.mp hid
    rw [BiMap.getByRight_eq_some_iff.mp hc] at hnew
    cases hnew
  let f : Nat → SchemaContent := fun n => (w.ledger.schemas (.ofNat (n + 1))).getD content
  have hf : ∀ n < 65535, w.ledger.schemas (.ofNat (n + 1)) = some (f n) := by
    intro n hn
    obtain ⟨content', hc⟩ := hcontent n hn
    simp only [f, hc, Option.getD_some]
  have hnodup : (content :: (List.range 65535).map f).Nodup := by
    refine List.nodup_cons.mpr ⟨fun hin => ?_, List.Nodup.map_on ?_ List.nodup_range⟩
    · obtain ⟨n, hn, hfn⟩ := List.mem_map.mp hin
      exact hnotin _ (hfn ▸ hf n (List.mem_range.mp hn))
    · intro n hn n' hn' heq
      have hid := hdiff (hf n (List.mem_range.mp hn)) (heq ▸ hf n' (List.mem_range.mp hn'))
      have hnat := congrArg UInt16.toNat hid
      rw [List.mem_range] at hn hn'
      rw [UInt16.toNat_ofNat_of_lt' (show n + 1 < 2 ^ 16 by omega),
        UInt16.toNat_ofNat_of_lt' (show n' + 1 < 2 ^ 16 by omega)] at hnat
      omega
  have hsub : (content :: (List.range 65535).map f) ⊆ contents.dedup := by
    intro content' hin
    rw [List.mem_dedup]
    rcases List.mem_cons.mp hin with rfl | hin
    · exact hmem
    · obtain ⟨n, hn, rfl⟩ := List.mem_map.mp hin
      exact hknown (hf n (List.mem_range.mp hn))
  have hle := (List.subperm_of_subset hnodup hsub).length_le
  rw [List.length_cons, List.length_map, List.length_range] at hle
  omega

/-! ### The steps -/

theorem HasWritten.call {w' : Writer σ Stream} {ds' : List BagConnection} {ms' : List BagMessage}
    (op : Op) (reply : Reply) {sent : List Message} (h : HasWritten o ds ms w)
    (hrun : op.run w = (.ok reply, w')) (hkeeps : op.Keeps Record.Fits o)
    (hsent : ∀ defs : Definitions, defs.sent (op, .ok reply) = sent)
    (hcarried : ∀ messages, CarriedAll ds ms messages → CarriedAll ds' ms' (messages ++ sent)) :
    HasWritten o ds' ms' w' := by
  obtain ⟨calls, messages, hsession, hmessages, hall⟩ := h
  refine ⟨_, _, .call hsession ⟨⟨reply, rfl⟩, hkeeps⟩ hrun ⟨by simp, by simp⟩, fun defs => ?_,
    hcarried messages hall⟩
  rw [List.flatMap_append, hmessages, List.flatMap_cons, List.flatMap_nil, List.append_nil, hsent]

omit [Encoders σ] in
theorem firstWith_push (key : SchemaKey) : firstWith (ds ++ [d]) key =
    (firstWith ds key).or (if d.key = key then some d else none) := by
  rw [firstWith, List.find?_append, ← firstWith, List.find?_singleton]
  simp only [decide_eq_true_eq]

theorem Converted.known_key (h : Converted o ds ms c)
    (hfirst : firstWith ds d.key = some d') : Converted o (ds ++ [d]) ms c where
  written := by
    obtain ⟨calls, messages, hsession, hmessages, hall⟩ := h.written
    exact ⟨calls, messages, hsession, hmessages, hall.mono (List.subset_append_left ..)⟩
  isOpen := h.isOpen
  sound := h.sound
  counted := h.counted
  sequence := h.sequence
  first {key d₁} hkey := by
    refine h.first (d := d₁) ?_
    rw [firstWith_push] at hkey
    cases hold : firstWith ds key with
    | some d₂ => rwa [hold, Option.some_or] at hkey
    | none =>
      have hne : d.key ≠ key := by
        rintro rfl
        rw [hfirst] at hold
        cases hold
      rw [hold, Option.none_or, if_neg hne] at hkey
      cases hkey
  absent {key} hkey := by
    rw [firstWith_push, Option.or_eq_none_iff] at hkey
    exact h.absent hkey.1
  known {id content} hid := by
    obtain ⟨hz, hmem⟩ := h.known hid
    rw [List.map_append]
    exact ⟨hz, List.mem_append_left _ hmem⟩
  different := h.different
  channels {id content} hid := by
    obtain ⟨d₁, hd, hrest⟩ := h.channels hid
    exact ⟨d₁, List.mem_append_left _ hd, hrest⟩

/-- What a new schema makes of the schemas. -/
structure AddedSchema (w w' : Writer σ Stream) (id : UInt16) (content : SchemaContent) : Prop where
  here : w'.ledger.schemas id = some content
  kept : ∀ {id' content'}, w.ledger.schemas id' = some content' →
    w'.ledger.schemas id' = some content'
  back : ∀ {id' content'}, w'.ledger.schemas id' = some content' →
    w.ledger.schemas id' = some content' ∨ id' = id ∧ content' = content
  only : w.ledger.schemas id = some content ∨ ∀ id', w.ledger.schemas id' ≠ some content
  nonzero : w.ledger.schemas id = some content ∨ id ≠ 0
  channels : w'.ledger.channels = w.ledger.channels

theorem Converted.addSchema (hr : Coder.Reliable σ) (h : Converted o ds ms c)
    (hfree : c.1.canonicalSchemas.getByLeft d.content = none →
      ∃ id, id ≠ 0 ∧ ¬ c.1.allSchemaIds.contains id = true) :
    Goes (Writer.addSchema d.msgType "ros1msg" d.definition) c.1 fun id w' =>
      w'.Counted ∧ AddedSchema c.1 w' id d.content := by
  obtain ⟨j, hshows, ho⟩ := h.isOpen
  obtain ⟨id, w', j', hrun, hshows', ho', hs', hcount, hid⟩ :=
    Writer.addSchema_goes hr hshows ho h.sound h.counted hfree
  have hdefs := Writer.addSchema_definitions h.sound hrun
  have hschemas : ∀ id', w'.ledger.schemas id' =
      Function.update c.1.ledger.schemas id (some d.content) id' :=
    fun id' => congrFun (congrArg Definitions.schemas hdefs) id'
  have hold : ∀ content', c.1.ledger.schemas id = some content' → content' = d.content := by
    intro content' hcontent
    rcases hid with hsame | ⟨-, -, hnone⟩
    · exact Option.some.inj (hcontent.symm.trans hsame)
    · rw [show c.1.ledger.schemas id = none from contentOf_eq_none hnone] at hcontent
      cases hcontent
  refine ⟨id, w', j', hrun, hshows', ho', hs', hcount, ?_, ?_, ?_, ?_, ?_, ?_⟩
  · rw [hschemas, Function.update_self]
  · intro id' content' hid'
    rw [hschemas]
    by_cases heq : id' = id
    · subst heq
      rw [Function.update_self, hold _ hid']
    · rw [Function.update_of_ne heq, hid']
  · intro id' content' hid'
    rw [hschemas] at hid'
    by_cases heq : id' = id
    · subst heq
      rw [Function.update_self] at hid'
      exact .inr ⟨rfl, (Option.some.inj hid').symm⟩
    · rw [Function.update_of_ne heq] at hid'
      exact .inl hid'
  · refine hid.imp_right fun ⟨hnew, _, _⟩ id' hid' => ?_
    obtain ⟨c', -, hc⟩ := Option.bind_eq_some_iff.mp hid'
    have hknown := BiMap.getByRight_eq_some_iff.mp hc
    rw [show c.1.canonicalSchemas.getByLeft d.content = none from hnew] at hknown
    cases hknown
  · exact hid.imp_right fun ⟨_, hne, _⟩ => hne
  · exact congrArg Definitions.channels hdefs

/-- **A connection whose key is new**, once its schema has been added. -/
theorem Converted.new_key (h : Converted o ds ms c) (hfits : d.Fits)
    (hnone : firstWith ds d.key = none) {id : UInt16} {w' : Writer σ Stream} {j' : Journal}
    (hrun : Writer.addSchema d.msgType "ros1msg" d.definition c.1 = (.ok id, w'))
    (hshows : Shows w' j') (ho : j'.Open) (hs : w'.Sound) (hcount : w'.Counted)
    (hadded : AddedSchema c.1 w' id d.content) :
    Converted o (ds ++ [d]) ms (w', { c.2 with schemas := c.2.schemas.insert d.key id }) where
  written := by
    refine h.written.call (.addSchema d.msgType "ros1msg" d.definition) (.id id)
      ((Exec.bind_ok hrun).trans rfl) (fun id' => ⟨hfits.msgType, ?_, hfits.definition⟩)
      (fun _ => rfl) fun messages hall => ?_
    · show (utf8 "ros1msg").length < 2 ^ 32
      decide
    · rw [List.append_nil]
      exact hall.mono (List.subset_append_left ..)
  isOpen := ⟨j', hshows, ho⟩
  sound := hs
  counted := hcount
  sequence := h.sequence
  first {key d₁} hkey := by
    rw [firstWith_push] at hkey
    by_cases heq : d.key = key
    · subst heq
      rw [hnone, Option.none_or, if_pos rfl] at hkey
      cases hkey
      exact ⟨id, BTreeMap.getElem?_insert_self .., hadded.here⟩
    · rw [if_neg heq, Option.or_none] at hkey
      obtain ⟨id₁, hid, hcontent⟩ := h.first hkey
      exact ⟨id₁, (BTreeMap.getElem?_insert_ne _ heq _).trans hid, hadded.kept hcontent⟩
  absent {key} hkey := by
    rw [firstWith_push, Option.or_eq_none_iff] at hkey
    have hne : d.key ≠ key := by
      intro heq
      rw [if_pos heq] at hkey
      cases hkey.2
    exact (BTreeMap.getElem?_insert_ne _ hne _).trans (h.absent hkey.1)
  known {id₁ content} hid := by
    rw [List.map_append]
    rcases hadded.back hid with hold | ⟨rfl, rfl⟩
    · obtain ⟨hz, hmem⟩ := h.known hold
      exact ⟨hz, List.mem_append_left _ hmem⟩
    · refine ⟨?_, List.mem_append_right _ (List.mem_singleton_self _)⟩
      rcases hadded.nonzero with hold | hne
      · exact (h.known hold).1
      · exact hne
  different {id₁ id₂ content} h₁ h₂ := by
    rcases hadded.back h₁ with hold₁ | ⟨rfl, rfl⟩
    · rcases hadded.back h₂ with hold₂ | ⟨rfl, rfl⟩
      · exact h.different hold₁ hold₂
      · rcases hadded.only with hsame | hnot
        · exact h.different hold₁ hsame
        · exact absurd hold₁ (hnot _)
    · rcases hadded.back h₂ with hold₂ | ⟨rfl, -⟩
      · rcases hadded.only with hsame | hnot
        · exact h.different hsame hold₂
        · exact absurd hold₂ (hnot _)
      · rfl
  channels {id₁ content} hid := by
    rw [hadded.channels] at hid
    obtain ⟨d₁, hd, hconn, schemaId, hkey, hcontent⟩ := h.channels hid
    have hne : d.key ≠ d₁.key := by
      intro heq
      rw [← heq, h.absent hnone] at hkey
      cases hkey
    exact ⟨d₁, List.mem_append_left _ hd, hconn, schemaId,
      (BTreeMap.getElem?_insert_ne _ hne _).trans hkey, hcontent⟩

/-- **The schema of a connection** is found, or added. -/
theorem Converted.schemaIdFor (hr : Coder.Reliable σ) (h : Converted o ds ms c) (hfits : d.Fits)
    (hfree : c.1.canonicalSchemas.getByLeft d.content = none →
      ∃ id, id ≠ 0 ∧ ¬ c.1.allSchemaIds.contains id = true) :
    ∃ (id : UInt16) (c' : Conversion σ), Mcap.schemaIdFor d.key d.definition c = .ok (id, c') ∧ Converted o (ds ++ [d]) ms c' ∧
      c'.2.connections = c.2.connections ∧ c'.2.schemas[d.key]? = some id ∧
      ∀ {key : SchemaKey} {id' : UInt16}, c.2.schemas[key]? = some id' →
        c'.2.schemas[key]? = some id' := by
  rw [Mcap.schemaIdFor]
  cases hfirst : firstWith ds d.key with
  | some d' =>
    obtain ⟨id, hid, -⟩ := h.first hfirst
    rw [hid]
    exact ⟨id, c, rfl, h.known_key hfirst, rfl, hid, fun hkey => hkey⟩
  | none =>
    obtain ⟨id, w', j', hrun, hshows, ho, hs, hcount, hadded⟩ := h.addSchema hr hfree
    have habsent := h.absent hfirst
    rw [habsent]
    refine ⟨id, _, ?_, h.new_key hfits hfirst hrun hshows ho hs hcount hadded, rfl,
      BTreeMap.getElem?_insert_self .., fun {key id'} hkey => ?_⟩
    · show calling _ (Writer.addSchema d.msgType "ros1msg" d.definition c.1) >>= _ = _
      rw [hrun]
      rfl
    · have hne : d.key ≠ key := by
        rintro rfl
        rw [habsent] at hkey
        cases hkey
      exact (BTreeMap.getElem?_insert_ne _ hne _).trans hkey

theorem Converted.withConnections (h : Converted o ds ms c) (connections : BTreeMap UInt32 Channel) :
    Converted o ds ms (c.1, { c.2 with connections }) :=
  ⟨h.written, h.isOpen, h.sound, h.counted, h.sequence, h.first, h.absent, h.known, h.different,
    h.channels⟩

/-- **A connection is taken in.** -/
theorem Converted.connection (hr : Coder.Reliable σ) (h : Converted o ds ms c)
    (hconn : c.2.Connects ds) (hfits : d.Fits) (hid : d.conn.toNat < 2 ^ 16)
    (hsame : ∀ d' ∈ ds, d'.conn = d.conn → d' = d)
    (hfree : c.1.canonicalSchemas.getByLeft d.content = none →
      ∃ id, id ≠ 0 ∧ ¬ c.1.allSchemaIds.contains id = true) :
    ∃ c', (BagEvent.connection d).apply c = .ok c' ∧ Converted o (ds ++ [d]) ms c' ∧
      c'.2.Connects (ds ++ [d]) := by
  obtain ⟨id, c', hrun, hconv, hsameConn, hkey, hkept⟩ := h.schemaIdFor hr hfits hfree
  refine ⟨_, ?_, hconv.withConnections (c'.2.connections.insert d.conn
    (d.channel (.ofNat d.conn.toNat) id)), fun d' hd' => ?_⟩
  · have hid' : connIdToChannelId d.conn = .ok (.ofNat d.conn.toNat) := if_pos hid
    show (Mcap.schemaIdFor d.key d.definition c >>= _) = _
    rw [hrun]
    simp only [Res.ok_bind, hid', Res.lift]
    rfl
  · by_cases heq : d.conn = d'.conn
    · have hsame' : d' = d := by
        rcases List.mem_append.mp hd' with hold | hnew
        · exact hsame d' hold heq.symm
        · exact List.mem_singleton.mp hnew
      subst hsame'
      exact ⟨id, hkey, BTreeMap.getElem?_insert_self ..⟩
    · have hold : d' ∈ ds := by
        rcases List.mem_append.mp hd' with hold | hnew
        · exact hold
        · exact absurd (congrArg BagConnection.conn (List.mem_singleton.mp hnew)).symm heq
      obtain ⟨id', hkey', hchannel⟩ := hconn d' hold
      refine ⟨id', hkept hkey', (BTreeMap.getElem?_insert_ne _ heq _).trans ?_⟩
      rw [hsameConn, hchannel]

theorem Converted.acceptsChannel (h : Converted o ds ms c) (hd : d ∈ ds)
    (hid : d.conn.toNat < 2 ^ 16) (hsame : ∀ d' ∈ ds, d'.conn = d.conn → d' = d) {id : UInt16}
    (hkey : c.2.schemas[d.key]? = some id) :
    c.1.AcceptsChannel (d.channel (.ofNat d.conn.toNat) id) := by
  rw [Writer.acceptsChannel_iff h.sound]
  have hback : (UInt16.ofNat d.conn.toNat).toNat = d.conn.toNat := UInt16.toNat_ofNat_of_lt' hid
  cases hchannel : c.1.ledger.channels (.ofNat d.conn.toNat) with
  | none => exact .inl hchannel
  | some content =>
    refine .inr (hchannel.trans ?_)
    obtain ⟨d', hd', hconn, schemaId, hkey', rfl⟩ := h.channels hchannel
    obtain rfl := hsame d' hd' (UInt32.toNat_inj.mp (hconn.trans hback))
    rw [hkey] at hkey'
    cases hkey'
    rfl

theorem carried_onChannel (hd : d ∈ ds) (hconn : d.conn = m.conn) (hid : d.conn.toNat < 2 ^ 16)
    (id : UInt16) :
    Carried ds ms.length m
      (m.onChannel (d.channel (.ofNat d.conn.toNat) id) (.ofNat ms.length)) where
  logTime := by
    have hsecs := m.secs.toNat_lt
    have hnsecs := m.nsecs.toNat_lt
    show (UInt64.ofNat _).toNat = _
    exact UInt64.toNat_ofNat_of_lt' (by
      show m.secs.toNat * 1000000000 + m.nsecs.toNat < 2 ^ 64
      omega)
  publishTime := rfl
  sequence := UInt32.toNat_ofNat
  data := rfl
  channelId := by
    show (UInt16.ofNat d.conn.toNat).toNat = _
    rw [UInt16.toNat_ofNat_of_lt' hid, hconn]
  connection := ⟨d, hd, hconn, rfl, _, rfl, rfl, rfl⟩

theorem BagConnection.Fits.keeps (hfits : d.Fits) (m : BagMessage) (channelId id : UInt16)
    (sequence : UInt32) :
    (Op.write (m.onChannel (d.channel channelId id) sequence)).Keeps Record.Fits o := by
  refine ⟨fun schema hschema => ?_, ⟨hfits.topic, ?_, hfits.metadata⟩, trivial⟩
  · cases hschema
    refine ⟨hfits.msgType, ?_, hfits.definition⟩
    show (utf8 "ros1msg").length < 2 ^ 32
    decide
  · show (utf8 "ros1").length < 2 ^ 32
    decide

/-- **A message is written** if the definition of its connection is the one its schema has. -/
theorem Converted.message (hr : Coder.Reliable σ) (h : Converted o ds ms c)
    (hconn : c.2.Connects ds) (hd : d ∈ ds) (hm : d.conn = m.conn) (hfits : d.Fits)
    (hid : d.conn.toNat < 2 ^ 16) (hsame : ∀ d' ∈ ds, d'.conn = d.conn → d' = d)
    (hfirst : firstWith ds d.key = some d') (hdef : d'.definition = d.definition) :
    ∃ c', (BagEvent.message m).apply c = .ok c' ∧ Converted o ds (ms ++ [m]) c' ∧
      c'.2.Connects ds := by
  obtain ⟨id, hkey, hchannel⟩ := hconn.channel hd hm
  obtain ⟨id', hkey', hschema⟩ := h.first hfirst
  rw [hkey] at hkey'
  cases hkey'
  -- the schema of the channel is registered with its content
  have hcontent : d'.content = d.content := by
    have htype : d'.msgType = d.msgType := congrArg SchemaKey.msgType (firstWith_key hfirst).2
    rw [BagConnection.content, BagConnection.content, htype, hdef]
  rw [hcontent] at hschema
  obtain ⟨j, hshows, ho⟩ := h.isOpen
  have haccepts := h.acceptsChannel hd hid hsame hkey
  have hgoes : Goes (Writer.write (m.onChannel (d.channel (.ofNat d.conn.toNat) id) c.2.sequence))
      c.1 fun _ w' => w'.nextSchemaId = c.1.nextSchemaId := by
    refine Writer.write_goes hr hshows ho h.sound (fun schema hs => ?_) haccepts
    cases hs
    exact (Writer.acceptsSchema_iff h.sound _).mpr (.inr hschema)
  obtain ⟨⟨⟩, w', j', hrun, hshows', ho', hs', hnext⟩ := hgoes
  have hdefs := Writer.write_definitions h.sound hrun
  have hschemas : w'.ledger.schemas = c.1.ledger.schemas := by
    refine (congrArg Definitions.schemas hdefs).trans ?_
    exact Function.update_eq_self_iff.mpr hschema.symm
  have hchannels : w'.ledger.channels = Function.update c.1.ledger.channels
      (.ofNat d.conn.toNat) (some (d.channel (.ofNat d.conn.toNat) id).content) :=
    congrArg Definitions.channels hdefs
  have hgood := Writer.preserves_write (m.onChannel (d.channel (.ofNat d.conn.toNat) id) c.2.sequence)
    c.1 ⟨h.sound, .refl c.1⟩
  rw [hrun] at hgood
  refine ⟨(w', { c.2 with sequence := c.2.sequence + 1 }), ?_, ⟨?_, ⟨j', hshows', ho'⟩, hs', ?_, ?_,
    ?_, h.absent, ?_, ?_, ?_⟩, hconn⟩
  · simp only [BagEvent.apply, hchannel]
    rw [hrun]
    rfl
  · refine h.written.call (.write _) .done ((Exec.bind_ok hrun).trans rfl) (hfits.keeps m _ _ _)
      (fun _ => rfl) fun messages hall => ?_
    rw [h.sequence]
    exact hall.push (carried_onChannel hd hm hid id)
  · intro hzero id' hne
    have hall := h.counted (hnext.symm.trans hzero) id' hne
    obtain ⟨v, hv⟩ := (BTreeMap.contains_iff _ _).mp hall
    exact (BTreeMap.contains_iff _ _).mpr ⟨v, hgood.grows.schemaIds hv⟩
  · show c.2.sequence + 1 = _
    rw [h.sequence, List.length_append]
    exact (UInt32.ofNat_add ..).symm
  · rw [hschemas]
    exact h.first
  · rw [hschemas]
    exact h.known
  · rw [hschemas]
    exact h.different
  · intro id' content hid'
    rw [hchannels] at hid'
    by_cases heq : id' = .ofNat d.conn.toNat
    · subst heq
      rw [Function.update_self] at hid'
      cases hid'
      exact ⟨d, hd, (UInt16.toNat_ofNat_of_lt' hid).symm, id, hkey, rfl⟩
    · rw [Function.update_of_ne heq] at hid'
      exact h.channels hid'

/-- **A message is refused** if the definition of its connection is not the one its schema
has. -/
theorem Converted.message_refused (h : Converted o ds ms c) (hconn : c.2.Connects ds) (hd : d ∈ ds)
    (hm : d.conn = m.conn) (hfirst : firstWith ds d.key = some d')
    (hdef : d'.definition ≠ d.definition)
    (c' : Conversion σ) : (BagEvent.message m).apply c ≠ .ok c' := by
  obtain ⟨id, hkey, hchannel⟩ := hconn.channel hd hm
  obtain ⟨id', hkey', hschema⟩ := h.first hfirst
  rw [hkey] at hkey'
  cases hkey'
  have hnot : ¬ c.1.AcceptsSchema
      { id, name := d.msgType, encoding := "ros1msg", data := d.definition } := by
    rw [Writer.acceptsSchema_iff h.sound, hschema]
    rintro (hnone | hsome)
    · cases hnone
    · exact hdef (congrArg SchemaContent.data (Option.some.inj hsome))
  have hwrite := congrFun (Writer.write_eq (m.onChannel (d.channel (.ofNat d.conn.toNat) id)
    c.2.sequence)) c.1
  simp only [BagEvent.apply, hchannel]
  rcases Writer.registerSchema_refused hnot with herr | hpanic
  · rw [hwrite.trans (Exec.bind_err herr)]
    intro hok
    cases hok
  · rw [hwrite.trans (Exec.bind_panic hpanic)]
    intro hok
    cases hok

/-! ### Runs -/

/-- **Where a conversion is** after the events `seen`. -/
structure Reached (o : WriteOptions) (seen : List BagEvent) (c : Conversion σ) : Prop where
  converted : Converted o (bagConnections seen) (bagMessages seen) c
  connects : c.2.Connects (bagConnections seen)

theorem apply_sizes {header data : Nat} :
    (BagEvent.sizes header data).apply c = .ok c' ↔
      (header ≤ MAX_RECORD_SECTION_SIZE ∧ data ≤ MAX_RECORD_SECTION_SIZE) ∧ c' = c := by
  rw [BagEvent.apply, ensureSizes, ensureSection, ensureSection]
  by_cases hh : header ≤ MAX_RECORD_SECTION_SIZE
  · by_cases hd : data ≤ MAX_RECORD_SECTION_SIZE
    · rw [if_pos hh, if_pos hd]
      exact ⟨fun h => by cases h; exact ⟨⟨hh, hd⟩, rfl⟩, fun h => by rw [h.2]; rfl⟩
    · rw [if_pos hh, if_neg hd]
      exact ⟨fun h => (by cases h), fun h => absurd h.1.2 hd⟩
  · rw [if_neg hh]
    exact ⟨fun h => (by cases h), fun h => absurd h.1.1 hh⟩

theorem apply_chunk {size : Nat} :
    (BagEvent.chunk size).apply c = .ok c' ↔ size ≤ MAX_RECORD_SECTION_SIZE ∧ c' = c := by
  rw [BagEvent.apply, ensureSection]
  by_cases hs : size ≤ MAX_RECORD_SECTION_SIZE
  · rw [if_pos hs]
    exact ⟨fun h => by cases h; exact ⟨hs, rfl⟩, fun h => by rw [h.2]; rfl⟩
  · rw [if_neg hs]
    exact ⟨fun h => (by cases h), fun h => absurd h.1 hs⟩

/-- **One event**: it is taken in if and only if it can be converted. -/
theorem Reached.step (hr : Coder.Reliable σ) {seen rest : List BagEvent} {e : BagEvent}
    (hbag : BagSound evs) (hfits : ∀ d ∈ bagConnections evs, d.Fits)
    (hsplit : evs = seen ++ e :: rest) (h : Reached o seen c) :
    (e.Convertible (bagConnections evs) →
        ∃ c', e.apply c = .ok c' ∧ Reached o (seen ++ [e]) c') ∧
      ∀ c', e.apply c = .ok c' → e.Convertible (bagConnections evs) := by
  have hconns : bagConnections evs = bagConnections seen ++ bagConnections (e :: rest) := by
    rw [hsplit, bagConnections_append]
  have hsub : bagConnections seen ⊆ bagConnections evs := by
    rw [hconns]
    exact List.subset_append_left ..
  -- an event that is only checked
  have hstay : bagConnections [e] = [] → bagMessages [e] = [] → Reached o (seen ++ [e]) c := by
    intro hc hm
    constructor
    · rw [bagConnections_append, bagMessages_append, hc, hm, List.append_nil, List.append_nil]
      exact h.converted
    · rw [bagConnections_append, hc, List.append_nil]
      exact h.connects
  cases e with
  | sizes header data =>
    exact ⟨fun hok => ⟨c, apply_sizes.mpr ⟨hok, rfl⟩, hstay rfl rfl⟩, fun c' hok =>
      (apply_sizes.mp hok).1⟩
  | chunk size =>
    exact ⟨fun hok => ⟨c, apply_chunk.mpr ⟨hok, rfl⟩, hstay rfl rfl⟩, fun c' hok =>
      (apply_chunk.mp hok).1⟩
  | connection d =>
    refine ⟨fun _ => ?_, fun _ _ => trivial⟩
    have hd : d ∈ bagConnections evs := by
      rw [hconns]
      exact List.mem_append_right _ List.mem_cons_self
    obtain ⟨c', hrun, hconv, hcon⟩ := h.converted.connection hr h.connects (hfits d hd)
      (hbag.ids d hd) (fun d' hd' heq => hbag.same d' (hsub hd') d hd heq) fun hnew =>
        exists_free_id h.converted.sound
          (fun hid => List.map_subset _ hsub (h.converted.known hid).2) h.converted.different
          hbag.schemas (List.mem_map_of_mem hd) hnew
    refine ⟨c', hrun, ?_, ?_⟩
    · rw [bagConnections_append, bagMessages_append, show bagMessages [BagEvent.connection d] = []
        from rfl, List.append_nil]
      exact hconv
    · rw [bagConnections_append]
      exact hcon
  | message m =>
    obtain ⟨d, hd, hm⟩ := hbag.earlier seen m rest hsplit
    obtain ⟨d', hfirst⟩ := exists_firstWith hd
    have hfirst' : firstWith (bagConnections evs) d.key = some d' := by
      rw [hconns]
      exact firstWith_append hfirst _
    have hsame := fun d' hd' heq => hbag.same d' (hsub hd') d (hsub hd) heq
    constructor
    · intro hok
      have hdef := hok d (hsub hd) hm d' hfirst'
      obtain ⟨c', hrun, hconv, hcon⟩ := h.converted.message hr h.connects hd hm (hfits d (hsub hd))
        (hbag.ids d (hsub hd)) hsame hfirst hdef
      have hnone : bagConnections [BagEvent.message m] = [] := rfl
      refine ⟨c', hrun, ?_, ?_⟩
      · rw [bagConnections_append, bagMessages_append, hnone, List.append_nil]
        exact hconv
      · rw [bagConnections_append, hnone, List.append_nil]
        exact hcon
    · intro c' hrun d₁ hd₁ hm₁ d₂ hfirst₂
      obtain rfl := hbag.same d₁ hd₁ d (hsub hd) (hm₁.trans hm.symm)
      rw [hfirst'] at hfirst₂
      cases hfirst₂
      by_contra hne
      exact h.converted.message_refused h.connects hd hm hfirst hne c' hrun

/-- **All events**: they are taken in if and only if they can be converted. -/
theorem Reached.run (hr : Coder.Reliable σ) {seen rest : List BagEvent} (hbag : BagSound evs)
    (hfits : ∀ d ∈ bagConnections evs, d.Fits) (hsplit : evs = seen ++ rest)
    (h : Reached o seen c) :
    ((∀ e ∈ rest, e.Convertible (bagConnections evs)) →
        ∃ c', applyAll rest c = .ok c' ∧ Reached o evs c') ∧
      ∀ c', applyAll rest c = .ok c' → ∀ e ∈ rest, e.Convertible (bagConnections evs) := by
  induction rest generalizing seen c with
  | nil =>
    rw [List.append_nil] at hsplit
    subst hsplit
    exact ⟨fun _ => ⟨c, rfl, h⟩, fun _ _ => List.forall_mem_nil _⟩
  | cons e rest ih =>
    obtain ⟨hgo, hback⟩ := h.step hr hbag hfits hsplit
    have hsplit' : evs = (seen ++ [e]) ++ rest := by rw [hsplit, List.append_assoc]; rfl
    constructor
    · intro hall
      obtain ⟨he, hrest⟩ := List.forall_mem_cons.mp hall
      obtain ⟨c₁, hrun, h₁⟩ := hgo he
      rw [applyAll, hrun]
      exact (ih hsplit' h₁).1 hrest
    · intro c' hrun
      obtain ⟨c₁, hone, hmore⟩ := Res.bind_eq_ok.mp (show e.apply c >>= applyAll rest = .ok c' from hrun)
      have he := hback c₁ hone
      obtain ⟨c₂, hone', h₂⟩ := hgo he
      rw [hone] at hone'
      cases hone'
      exact List.forall_mem_cons.mpr ⟨he, (ih hsplit' h₂).2 c' hmore⟩

theorem Reached.start (hnew : Writer.withOptions Stream.empty o = .ok w) :
    Reached o [] (w, .new) := by
  have hf := faithful_new (K := fun _ => True) hnew trivial
  have hledger : w.ledger = Ledger.empty := hf.ledger
  have hnext : w.nextSchemaId = 1 := by
    unfold Writer.withOptions at hnew
    obtain ⟨_, -, hnew⟩ := Res.bind_eq_ok.mp hnew
    obtain ⟨_, -, hnew⟩ := Res.bind_eq_ok.mp hnew
    obtain ⟨_, -, hnew⟩ := Res.bind_eq_ok.mp hnew
    cases hnew
    rfl
  refine ⟨⟨⟨[], [], .start hnew, fun _ => rfl, .nil⟩, ⟨_, hf.shows_, .inl rfl⟩, hf.sound, ?_, rfl,
    fun hfirst => (by cases hfirst), fun _ => Std.ExtTreeMap.getElem?_empty, ?_, ?_, ?_⟩,
    fun d hd => (by cases hd)⟩
  · intro hzero
    rw [show (w, ConversionState.new).1 = w from rfl, hnext] at hzero
    cases hzero
  · intro id content hid
    rw [hledger] at hid
    cases hid
  · intro id id' content hid
    rw [hledger] at hid
    cases hid
  · intro id content hid
    rw [hledger] at hid
    cases hid

theorem sizes_of_ok (h : applyAll evs c = .ok c') {header data : Nat}
    (hmem : .sizes header data ∈ evs) :
    header ≤ MAX_RECORD_SECTION_SIZE ∧ data ≤ MAX_RECORD_SECTION_SIZE := by
  induction evs generalizing c with
  | nil => cases hmem
  | cons e evs ih =>
    obtain ⟨c₁, hone, hmore⟩ := Res.bind_eq_ok.mp (show e.apply c >>= applyAll evs = .ok c' from h)
    rcases List.mem_cons.mp hmem with rfl | hmem
    · exact (apply_sizes.mp hone).1
    · exact ih hmore hmem

end

/-! ## The conversion -/

theorem BagHolds.fits {κ : Type} [BagDecoders κ] {input : Bytes} {evs : List BagEvent}
    (h : BagHolds κ input evs) (hsizes : ∀ header data, .sizes header data ∈ evs →
      header ≤ MAX_RECORD_SECTION_SIZE ∧ data ≤ MAX_RECORD_SECTION_SIZE) :
    ∀ d ∈ bagConnections evs, d.Fits := by
  induction h with
  | nil => exact List.forall_mem_nil _
  | other _ _ _ _ _ ih => exact ih fun _ _ hmem => hsizes _ _ (List.mem_cons_of_mem _ hmem)
  | @connection fs info d rest evs hfs _ _ _ htopic hd _ ih =>
    refine List.forall_mem_cons.mpr ⟨hd.fits ?_ (hsizes _ _ List.mem_cons_self).2, ih
      fun _ _ hmem => hsizes _ _ (List.mem_cons_of_mem _ (List.mem_cons_of_mem _ hmem))⟩
    have hlen := length_field_le (mem_of_fieldMap htopic)
    have hmax := hfs.length
    show (utf8 d.topic).length < 2 ^ 32
    simp only at hlen
    omega
  | message _ _ _ _ _ _ ih =>
    exact ih fun _ _ hmem => hsizes _ _ (List.mem_cons_of_mem _ (List.mem_cons_of_mem _ hmem))
  | @chunk fs data compression inner evs' rest evs _ _ _ _ _ _ _ _ _ ih ih' =>
    have hin : ∀ header data, .sizes header data ∈ evs' ++ evs →
        header ≤ MAX_RECORD_SECTION_SIZE ∧ data ≤ MAX_RECORD_SECTION_SIZE :=
      fun _ _ hmem => hsizes _ _ (List.mem_cons_of_mem _ (List.mem_cons_of_mem _ hmem))
    intro d hd
    have happ : d ∈ bagConnections (evs' ++ evs) := hd
    rw [bagConnections_append] at happ
    rcases List.mem_append.mp happ with hinner | hrest
    · exact ih (fun _ _ hmem => hin _ _ (List.mem_append_left _ hmem)) d hinner
    · exact ih' (fun _ _ hmem => hin _ _ (List.mem_append_right _ hmem)) d hrest

section
variable {σ : Type} [Encoders σ] {κ : Type} [BagDecoders κ] {o : WriteOptions} {order : HashOrder}
  {input : Bytes} {evs : List BagEvent}

/-- What the conversion of a bag with these events comes to. -/
def bagOutcome (order : HashOrder) (o : WriteOptions) (evs : List BagEvent) :
    Res AnyError (Writer σ Stream) :=
  match Writer.withOptions Stream.empty o with
  | .err e => .err (.context "failed to create MCAP writer" (.mcap e))
  | .panic => .panic
  | .ok writer => do
      let (writer, _) ← applyAll evs (writer, .new)
      let (_, writer) ← calling "failed to finalize MCAP writer" (Writer.finish order writer)
      pure writer

/-- **The conversion comes to an end**, with the outcome of the events. -/
theorem converts_holds (h : BagHolds κ input evs) :
    Converts κ order o (BAG_MAGIC ++ input) (bagOutcome (σ := σ) order o evs) := by
  obtain ⟨N, hN⟩ := processRecords_holds (σ := σ) κ h
  refine ⟨N, fun fuel hfuel => ?_⟩
  rw [convertRos1Bag, readExactly_append]
  simp only [withContext]
  rw [if_neg (not_not_intro rfl), bagOutcome]
  rcases Writer.withOptions (σ := σ) Stream.empty o with w | e | _
  · simp only [hN fuel hfuel]
    rcases applyAll evs (w, ConversionState.new) with ⟨w', st⟩ | e | _
    · simp only [Res.ok_bind]
      rcases calling "failed to finalize MCAP writer" (Writer.finish order w') with ⟨s, w''⟩ | e | _ <;>
        rfl
    · rfl
    · rfl
  · rfl
  · rfl

theorem Converts.unique {R R' : Res AnyError (Writer σ Stream)} (h : Converts κ order o input R)
    (h' : Converts κ order o input R') : R = R' := by
  obtain ⟨N, hN⟩ := h
  obtain ⟨N', hN'⟩ := h'
  exact Option.some.inj ((hN (max N N') (le_max_left ..)).symm.trans (hN' _ (le_max_right ..)))

/-- **The output has the messages of the bag**: a `MessageStream` yields them, and no error. -/
def CarriesBag {δ : Type} (D : Decompressor δ) (o : WriteOptions) (evs : List BagEvent)
    (w : Writer σ Stream) : Prop :=
  ∃ es order summary, w.Produced (fileBytes o es (summaryGroups o order summary)) ∧
    (∀ records out, .chunk records out ∈ es → Packs σ o records out) ∧
    (InMemory o es (summaryGroups o order summary) → IndexesFit o es →
      ∃ messages, CarriedAll (bagConnections evs) (bagMessages evs) messages ∧
        Drains (MessageStream.next D)
          (RawMessageStream.new false (fileBytes o es (summaryGroups o order summary)))
          (messages.map .ok) .finished)

/-- **A ROS1 bag is converted**, and its messages are in the output, if and only if a writer
can be created, no section and no chunk is longer than 1 GiB, and the connection of every
message has the definition of the first connection with its type and md5sum. -/
theorem convert_ros1_bag_iff {δ : Type} {D : Decompressor δ} {Δ : Decoding D none}
    (hl : Lossless σ Δ) (hr : Coder.Reliable σ) (hheader : (fileHeader o).Fits)
    (hbag : BagHolds κ input evs) (hsound : BagSound evs) :
    (∃ w : Writer σ Stream, Converts κ order o (BAG_MAGIC ++ input) (.ok w) ∧
        CarriesBag D o evs w) ↔
      (∃ w : Writer σ Stream, Writer.withOptions Stream.empty o = .ok w) ∧
        ∀ e ∈ evs, e.Convertible (bagConnections evs) := by
  constructor
  · rintro ⟨w', hconv, -⟩
    have hout := (converts_holds hbag).unique hconv
    rw [bagOutcome] at hout
    cases hnew : Writer.withOptions (σ := σ) Stream.empty o with
    | err e | panic =>
      rw [hnew] at hout
      cases hout
    | ok w =>
      rw [hnew] at hout
      obtain ⟨⟨w₁, st⟩, hall, -⟩ := Res.bind_eq_ok.mp hout
      have hfits := hbag.fits fun header data hmem => sizes_of_ok hall hmem
      exact ⟨⟨w, rfl⟩, ((Reached.start hnew).run hr hsound hfits rfl).2 _ hall⟩
  · rintro ⟨⟨w, hnew⟩, hall⟩
    have hfits := hbag.fits fun header data hmem => hall _ hmem
    obtain ⟨⟨w₁, st⟩, hrun, ⟨hconv, -⟩⟩ := ((Reached.start hnew).run hr hsound hfits rfl).1 hall
    obtain ⟨j, hshows, ho⟩ := hconv.isOpen
    obtain ⟨summary, w', hfin⟩ := Writer.finish_ok hr hshows ho hconv.sound order
    refine ⟨w', ?_, ?_⟩
    · have hout : bagOutcome order o evs = .ok w' := by
        rw [bagOutcome, hnew]
        show applyAll evs (w, ConversionState.new) >>= _ = _
        rw [hrun]
        show calling _ (Writer.finish order w₁) >>= _ = _
        rw [hfin]
        rfl
      rw [← hout]
      exact converts_holds hbag
    · obtain ⟨calls, messages, hsession, hmessages, hcarried⟩ := hconv.written
      have hzero : (definitionsOf calls).schemas 0 = none := by
        rw [← definitionsOf_calls hsession fun _ _ _ hp => hp.1]
        by_contra hne
        obtain ⟨content, hcontent⟩ := Option.ne_none_iff_exists'.mp hne
        exact (hconv.known hcontent).1 rfl
      obtain ⟨es, hproduced, hpacks, hdrains⟩ :=
        hsession.messages_read hl hheader hzero hfin
      refine ⟨es, order, summary, hproduced, hpacks, fun hmem hindexes => ?_⟩
      have hsent : sentMessages calls = messages := hmessages (definitionsOf calls)
      have h := hdrains hmem hindexes
      rw [hsent] at h
      exact ⟨messages, hcarried, h⟩

end

/-- Chunks that are stored under any name. -/
structure Verbatim where
  left : Bytes

instance : BagDecoders Verbatim where
  newBz2 data := ⟨data⟩
  newLz4 data := .ok ⟨data⟩
  read decoder := .ok (decoder.left, ⟨[]⟩)
  finishLz4 _ := .ok ()

/-- A connection of type `a`. -/
def sharedKeyConnection (conn : UInt32) (definition : Bytes) : BagConnection where
  conn
  topic := "t"
  msgType := "a"
  md5sum := "m"
  definition
  metadata := BTreeMap.insertAll ∅ [(KEY_MD5SUM, "m")]

def sharedKeyFields (conn : UInt32) : List (String × Bytes) :=
  [(KEY_OP, [OP_BAG_CONNECTION]), (KEY_CONN, u32 conn), (KEY_TOPIC, utf8 "t")]

def sharedKeyInfo (definition : Bytes) : List (String × Bytes) :=
  [(KEY_TYPE, utf8 "a"), (KEY_MD5SUM, utf8 "m"), (KEY_MESSAGE_DEFINITION, definition)]

def sharedKeyMessage : BagMessage := ⟨1, 1, 2, [9]⟩

def sharedKeyMessageFields : List (String × Bytes) :=
  [(KEY_OP, [OP_BAG_MESSAGE_DATA]), (KEY_CONN, u32 1), (KEY_TIME, u32 1 ++ u32 2)]

/-- Two connections with the same type and md5sum, and a message on the second. -/
def sharedKeyInput (definition : Bytes) : Bytes :=
  bagRecord (bagFields (sharedKeyFields 0)) (bagFields (sharedKeyInfo [1])) ++
    (bagRecord (bagFields (sharedKeyFields 1)) (bagFields (sharedKeyInfo definition)) ++
      (bagRecord (bagFields sharedKeyMessageFields) sharedKeyMessage.data ++ []))

def sharedKeyEvents (definition : Bytes) : List BagEvent :=
  [.sizes (bagFields (sharedKeyFields 0)).length (bagFields (sharedKeyInfo [1])).length,
    .connection (sharedKeyConnection 0 [1]),
    .sizes (bagFields (sharedKeyFields 1)).length (bagFields (sharedKeyInfo definition)).length,
    .connection (sharedKeyConnection 1 definition),
    .sizes (bagFields sharedKeyMessageFields).length sharedKeyMessage.data.length,
    .message sharedKeyMessage]

theorem fieldsFit_sharedKey (conn : UInt32) (hconn : conn = 0 ∨ conn = 1) :
    FieldsFit (sharedKeyFields conn) := by
  rcases hconn with rfl | rfl
  · exact ⟨by decide +kernel, by decide +kernel⟩
  · exact ⟨by decide +kernel, by decide +kernel⟩

theorem describes_sharedKey (conn : UInt32) (b : UInt8) (hb : b = 1 ∨ b = 2) :
    FieldsFit (sharedKeyInfo [b]) ∧ Describes (sharedKeyInfo [b]) (sharedKeyConnection conn [b]) := by
  have hzero : FieldsFit (sharedKeyInfo [b]) ∧
      Describes (sharedKeyInfo [b]) (sharedKeyConnection 0 [b]) := by
    rcases hb with rfl | rfl
    · exact ⟨⟨by decide +kernel, by decide +kernel⟩, by decide +kernel, by decide +kernel,
        by decide +kernel, by decide +kernel⟩
    · exact ⟨⟨by decide +kernel, by decide +kernel⟩, by decide +kernel, by decide +kernel,
        by decide +kernel, by decide +kernel⟩
  exact ⟨hzero.1, hzero.2.msgType, hzero.2.md5sum, hzero.2.definition, hzero.2.metadata⟩

theorem holds_sharedKey (b : UInt8) (hb : b = 1 ∨ b = 2) :
    BagHolds Verbatim (sharedKeyInput [b]) (sharedKeyEvents [b]) := by
  obtain ⟨hfit, hdesc⟩ := describes_sharedKey 0 1 (.inl rfl)
  obtain ⟨hfit', hdesc'⟩ := describes_sharedKey 1 b hb
  have hmessage : FieldsFit sharedKeyMessageFields := ⟨by decide +kernel, by decide +kernel⟩
  have hconn : (fieldMap (sharedKeyFields 1))[KEY_CONN]? = some (u32 1) := by decide +kernel
  have htopic : (fieldMap (sharedKeyFields 1))[KEY_TOPIC]? = some (utf8 "t") := by decide +kernel
  unfold sharedKeyInput sharedKeyEvents
  refine .connection (fieldsFit_sharedKey 0 (.inl rfl)) hfit ?_ ?_ ?_ hdesc
    (.connection (fieldsFit_sharedKey 1 (.inr rfl)) hfit' ?_ hconn htopic hdesc'
      (.message hmessage (by decide) ?_ ?_ ?_ .nil))
  all_goals decide +kernel

theorem sound_sharedKey (definition : Bytes) : BagSound (sharedKeyEvents definition) where
  ids d hd := by
    rcases List.mem_cons.mp hd with rfl | hd
    · decide
    · obtain rfl := List.mem_singleton.mp hd
      show (1 : UInt32).toNat < 2 ^ 16
      decide
  same d hd d' hd' hconn := by
    rcases List.mem_cons.mp hd with rfl | hd
    · rcases List.mem_cons.mp hd' with rfl | hd'
      · rfl
      · obtain rfl := List.mem_singleton.mp hd'
        cases hconn
    · obtain rfl := List.mem_singleton.mp hd
      rcases List.mem_cons.mp hd' with rfl | hd'
      · cases hconn
      · exact (List.mem_singleton.mp hd').symm
  earlier pre m post hsplit := by
    have hmem : sharedKeyConnection 1 definition ∈ bagConnections pre ∧ m = sharedKeyMessage := by
      simp only [sharedKeyEvents, List.cons_eq_append_iff, List.cons.injEq, reduceCtorEq, and_false,
        false_and, false_or, or_false, List.nil_eq, List.append_eq_nil_iff, exists_false,
        BagEvent.message.injEq] at hsplit
      obtain ⟨p₁, rfl, p₂, rfl, p₃, rfl, p₄, rfl, p₅, rfl, rfl, rfl, -⟩ := hsplit
      exact ⟨List.mem_cons_of_mem _ List.mem_cons_self, rfl⟩
    exact ⟨_, hmem.1, by rw [hmem.2]; rfl⟩
  schemas := by
    have hle := (List.dedup_sublist
      ((bagConnections (sharedKeyEvents definition)).map BagConnection.content)).length_le
    refine hle.trans ?_
    show 2 ≤ 65535
    decide

/-- A bag whose two connections with the same type and md5sum have the same definition. -/
theorem convert_ros1_bag_shared_key : ∃ w : Writer Storing Stream,
    Converts Verbatim .byId repeatOptions (BAG_MAGIC ++ sharedKeyInput [1]) (.ok w) ∧
      CarriesBag storedCodecs repeatOptions (sharedKeyEvents [1]) w := by
  have hdef : ∀ d ∈ bagConnections (sharedKeyEvents [1]), d.definition = [1] := by decide +kernel
  refine (convert_ros1_bag_iff lossless_storing reliable_storing ⟨by decide, by decide⟩
    (holds_sharedKey 1 (.inl rfl)) (sound_sharedKey [1])).mpr ⟨⟨_, rfl⟩, ?_⟩
  refine List.forall_mem_cons.mpr ⟨⟨by decide +kernel, by decide +kernel⟩, List.forall_mem_cons.mpr
    ⟨trivial, List.forall_mem_cons.mpr ⟨⟨by decide +kernel, by decide +kernel⟩,
      List.forall_mem_cons.mpr ⟨trivial, List.forall_mem_cons.mpr ⟨⟨by decide +kernel,
        by decide +kernel⟩, List.forall_mem_singleton.mpr ?_⟩⟩⟩⟩⟩
  intro d hd _ d' hfirst
  rw [hdef d hd, hdef d' (firstWith_key hfirst).1]

/-- **A bag that makes the conversion panic**: the definitions differ. -/
theorem convert_ros1_bag_panics : BagHolds Verbatim (sharedKeyInput [2]) (sharedKeyEvents [2]) ∧
    BagSound (sharedKeyEvents [2]) ∧
    (∃ w : Writer Storing Stream, Writer.withOptions Stream.empty repeatOptions = .ok w) ∧
    Converts Verbatim .byId repeatOptions (BAG_MAGIC ++ sharedKeyInput [2])
      (.panic : Res AnyError (Writer Storing Stream)) := by
  have hholds := holds_sharedKey 2 (.inr rfl)
  refine ⟨hholds, sound_sharedKey [2], ⟨_, rfl⟩, ?_⟩
  have hpanic : bagOutcome (σ := Storing) .byId repeatOptions (sharedKeyEvents [2]) = .panic := by
    rfl
  rw [← hpanic]
  exact converts_holds hholds

end Mcap

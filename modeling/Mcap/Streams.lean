import Mcap.Iteration
import Mcap.Requests
import Mcap.RecordCodec
import Mcap.Types

/-! # Readers of a mapped file

The iterators of `read.rs` that read a file from one slice.  An `InnerReader` feeds a
streaming reader with what it asks for and parses the records it yields; `ChunkFlattener`,
`ChunkReader` and `read::LinearReader` are ways to set it up.  `RawMessageStream` keeps the
schemas and the channels it sees in a `ChannelAccumulator` and yields the messages, and
`MessageStream` adds to each message its channel.

What a stream yields is a function of what the streaming reader yields: `streamItems`.  It
takes the records of a run one by one, and `RawMessageStream.drains` says that it is what the
iterators do.  `Collects acc evs ms acc'` says that the records `evs` are all good, and what
messages are among them; a stream yields these, and whatever else it yields comes behind them
(`streamItems_append`).
-/
namespace Mcap

/-! ## `InnerReader` -/

/-- `InnerReader`. -/
structure InnerReader (δ : Type) where
  buf : Bytes
  reader : LinearReader δ

section
variable {δ : Type} (D : Decompressor δ)

/-- The result of `parse_record` as an item. -/
def parsedItem {S : Type} (opcode : UInt8) (data : Bytes) (s : S) :
    Next S (Except McapError Record) :=
  match parseRecord opcode data with
  | .ok record => .item (.ok record) s
  | .err e => .item (.error e) s
  | .panic => .panic

/-- One event of the reader: a request is answered with what is left of the slice, and `k`
goes round the loop again. -/
def InnerReader.react (buf : Bytes)
    (k : InnerReader δ → Next (InnerReader δ) (Except McapError Record)) :
    Outcome δ → Next (InnerReader δ) (Except McapError Record)
  | .ret reader (some (.ok (.readRequest need))) =>
      let len := min buf.length need
      match reader.feed len (buf.take len) with
      | none => .panic
      | some reader => k ⟨buf.drop len, reader⟩
  | .ret reader (some (.ok (.record opcode data))) => parsedItem opcode data ⟨buf, reader⟩
  | .ret reader (some (.error e)) => .item (.error e) ⟨buf, reader⟩
  | .ret reader none => .ended ⟨buf, reader⟩
  | .panic => .panic
  | .spin => .spin

/-- `InnerReader::next`. -/
def InnerReader.next : Nat → InnerReader δ → Next (InnerReader δ) (Except McapError Record)
  | 0, _ => .spin
  | fuel + 1, s => InnerReader.react s.buf (next fuel) (s.reader.nextEvent D (fuel + 1))

/-- The options of `ChunkFlattener::new_with_options`. -/
def ChunkFlattener.options (ignoreEndMagic : Bool) : LinearReaderOptions where
  skipEndMagic := ignoreEndMagic
  validateChunkCrcs := true

/-- `ChunkFlattener::new_with_options`. -/
def ChunkFlattener.new (ignoreEndMagic : Bool) (buf : Bytes) : InnerReader δ where
  buf
  reader := .newWithOptions (ChunkFlattener.options ignoreEndMagic)

/-- What `InnerReader::next` gives on the front of what the reader yields: the first record,
parsed, with the rest to follow; or the end. -/
def InnerReader.Front (s : InnerReader δ) :
    List (UInt8 × Bytes) → Final → Prop
  | (opcode, data) :: evs, fin => ∃ s' : InnerReader δ,
      Comes (InnerReader.next D) s (parsedItem opcode data s') ∧
        Observes D s'.reader s'.buf evs fin
  | [], .finished => ∃ s', Comes (InnerReader.next D) s (.ended s')
  | [], .failed e => ∃ s', Comes (InnerReader.next D) s (.item (.error e) s')
  | [], .panicked => Comes (InnerReader.next D) s .panic

variable {D} {r : LinearReader δ} {x : Next (InnerReader δ) (Except McapError Record)}

theorem InnerReader.comes_of_returns {buf : Bytes} {out : Outcome δ} (h : Returns D r out)
    (hx : ∀ k, InnerReader.react buf k out = x) : Comes (InnerReader.next D) ⟨buf, r⟩ x := by
  obtain ⟨N, hN⟩ := h
  refine ⟨N + 1, ?_⟩
  rintro (_ | fuel) hf
  · omega
  · rw [InnerReader.next, hN (fuel + 1) (by omega), hx]

theorem InnerReader.comes_of_request {buf : Bytes} {r' r'' : LinearReader δ} {n : Nat}
    (h : Returns D r (.ret r' (some (.ok (.readRequest n)))))
    (hfeed : r'.feed (min buf.length n) (buf.take (min buf.length n)) = some r'')
    (hx : Comes (InnerReader.next D) ⟨buf.drop (min buf.length n), r''⟩ x) :
    Comes (InnerReader.next D) ⟨buf, r⟩ x := by
  obtain ⟨N, hN⟩ := h
  obtain ⟨M, hM⟩ := hx
  refine ⟨max N M + 1, ?_⟩
  rintro (_ | fuel) hf
  · omega
  · rw [InnerReader.next, hN (fuel + 1) (by omega)]
    simp only [InnerReader.react, hfeed]
    exact hM fuel (by omega)

/-- **The calls of an `InnerReader`** give what its reader yields. -/
theorem InnerReader.front {buf : Bytes} {evs : List (UInt8 × Bytes)} {fin : Final}
    (h : Observes D r buf evs fin) : InnerReader.Front D ⟨buf, r⟩ evs fin := by
  induction h with
  | @record r r' rest opcode data evs fin hr hrest _ =>
    exact ⟨⟨rest, r'⟩, comes_of_returns hr fun _ => rfl, hrest⟩
  | @request r r' n rest evs fin hr _ ih =>
    -- the answer is as much of the input as is asked for, and nothing only at its end
    have hlen : (rest.take (min rest.length n)).length ≤ min rest.length n := by
      rw [List.length_take]
      omega
    obtain ⟨r'', hfeed⟩ := LinearReader.exists_feed (r := r') hlen
    have hpos := LinearReader.request_pos hr
    have hnil : rest.take (min rest.length n) = [] → rest.drop (min rest.length n) = [] := by
      intro hnil
      have hzero := congrArg List.length hnil
      rw [List.length_take, List.length_nil] at hzero
      exact List.drop_eq_nil_of_le (by omega)
    have hfront := ih (List.take_append_drop _ _).symm hnil hfeed
    cases evs with
    | cons ev evs =>
      obtain ⟨s', hc, hrest⟩ := hfront
      exact ⟨s', comes_of_request hr hfeed hc, hrest⟩
    | nil =>
      cases fin with
      | finished | failed e =>
        obtain ⟨s', hc⟩ := hfront
        exact ⟨s', comes_of_request hr hfeed hc⟩
      | panicked => exact comes_of_request hr hfeed hfront
  | @fail r r' rest e hr | @done r r' rest hr =>
    exact ⟨⟨rest, r'⟩, comes_of_returns hr fun _ => rfl⟩
  | @panic r rest hr => exact comes_of_returns hr fun _ => rfl

end

/-! ## `ChannelAccumulator` -/

/-- `ChannelAccumulator`. -/
structure ChannelAccumulator where
  schemas : BTreeMap UInt16 Schema
  channels : BTreeMap UInt16 Channel

namespace ChannelAccumulator

/-- `ChannelAccumulator::default`. -/
def empty : ChannelAccumulator := ⟨∅, ∅⟩

variable (acc : ChannelAccumulator)

/-- `ChannelAccumulator::add_schema`: a schema that is there already has to be the same. -/
def addSchema (header : SchemaHeader) (data : Bytes) : Except McapError ChannelAccumulator :=
  if header.id = 0 then .error .invalidSchemaId
  else
    match acc.schemas[header.id]? with
    | some schema =>
        if schema.name = header.name ∧ schema.encoding = header.encoding ∧ schema.data = data then
          .ok acc
        else .error (.conflictingSchemas header.name)
    | none =>
        let schema : Schema :=
          { id := header.id, name := header.name, encoding := header.encoding, data }
        .ok { acc with schemas := acc.schemas.insert header.id schema }

/-- The schema a channel refers to: none for the id 0, and a schema seen before. -/
def schemaOf (chan : ChannelRecord) : Except McapError (Option Schema) :=
  if chan.schemaId = 0 then .ok none
  else
    match acc.schemas[chan.schemaId]? with
    | some schema => .ok (some schema)
    | none => .error (.unknownSchema chan.topic chan.schemaId)

/-- The id of the schema of a channel, or 0. -/
def schemaIdOf (channel : Channel) : UInt16 := (channel.schema.map Schema.id).getD 0

/-- `ChannelAccumulator::add_channel`: a channel that is there already has to be the same. -/
def addChannel (chan : ChannelRecord) : Except McapError ChannelAccumulator :=
  match acc.schemaOf chan with
  | .error e => .error e
  | .ok schema =>
      match acc.channels[chan.id]? with
      | some channel =>
          if channel.topic = chan.topic ∧ schemaIdOf channel = chan.schemaId ∧
              channel.messageEncoding = chan.messageEncoding ∧ channel.metadata = chan.metadata then
            .ok acc
          else .error (.conflictingChannels chan.topic)
      | none =>
          let channel : Channel :=
            { id := chan.id
              topic := chan.topic
              schema
              messageEncoding := chan.messageEncoding
              metadata := chan.metadata }
          .ok { acc with channels := acc.channels.insert chan.id channel }

/-- `ChannelAccumulator::get`. -/
def get (id : UInt16) : Option Channel := acc.channels[id]?

/-- A record of the file: schemas and channels are added, the rest is skipped. -/
def observe : Record → Except McapError ChannelAccumulator
  | .schema header data => acc.addSchema header data
  | .channel chan => acc.addChannel chan
  | _ => .ok acc

end ChannelAccumulator

/-! ## Message streams -/

/-- `RawMessage`. -/
structure RawMessage where
  header : MessageHeader
  data : Bytes
deriving DecidableEq

/-- `RawMessageStream`. -/
structure RawMessageStream (δ : Type) where
  records : InnerReader δ
  done : Bool
  channeler : ChannelAccumulator

section
variable {δ : Type} (D : Decompressor δ)

/-- `RawMessageStream::new_with_options`. -/
def RawMessageStream.new (ignoreEndMagic : Bool) (buf : Bytes) : RawMessageStream δ where
  records := ChunkFlattener.new ignoreEndMagic buf
  done := false
  channeler := .empty

/-- One record of `RawMessageStream::next`: a message is an item, an error is the last one,
and `k` goes round the loop again. -/
def RawMessageStream.react (channeler : ChannelAccumulator)
    (k : RawMessageStream δ → Next (RawMessageStream δ) (Except McapError RawMessage)) :
    Next (InnerReader δ) (Except McapError Record) →
      Next (RawMessageStream δ) (Except McapError RawMessage)
  | .item (.ok record) records =>
      match record with
      | .message header data => .item (.ok ⟨header, data⟩) ⟨records, false, channeler⟩
      | record =>
          match channeler.observe record with
          | .ok channeler => k ⟨records, false, channeler⟩
          | .error e => .item (.error e) ⟨records, true, channeler⟩
  | .item (.error e) records => .item (.error e) ⟨records, true, channeler⟩
  | .ended records => .ended ⟨records, true, channeler⟩
  | .panic => .panic
  | .spin => .spin

/-- `RawMessageStream::next`. -/
def RawMessageStream.next : Nat → RawMessageStream δ →
    Next (RawMessageStream δ) (Except McapError RawMessage)
  | 0, _ => .spin
  | fuel + 1, s =>
      if s.done then .ended s
      else RawMessageStream.react s.channeler (next fuel) (s.records.next D (fuel + 1))

/-- An item of a `RawMessageStream`, its message looked at with the channels seen so far. -/
def RawMessageStream.looked {α : Type}
    (look : ChannelAccumulator → RawMessage → Except McapError α) :
    Next (RawMessageStream δ) (Except McapError RawMessage) →
      Next (RawMessageStream δ) (Except McapError α)
  | .item (.ok message) s => .item (look s.channeler message) s
  | .item (.error e) s => .item (.error e) s
  | .ended s => .ended s
  | .panic => .panic
  | .spin => .spin

/-- A `RawMessageStream` whose messages are looked at. -/
def RawMessageStream.nextWith {α : Type}
    (look : ChannelAccumulator → RawMessage → Except McapError α) (fuel : Nat)
    (s : RawMessageStream δ) : Next (RawMessageStream δ) (Except McapError α) :=
  RawMessageStream.looked look (RawMessageStream.next D fuel s)

/-- The message with its channel, which must have been read before. -/
def ChannelAccumulator.message (acc : ChannelAccumulator) (m : RawMessage) :
    Except McapError Message :=
  match acc.get m.header.channelId with
  | some channel =>
      .ok
        { channel
          sequence := m.header.sequence
          logTime := m.header.logTime
          publishTime := m.header.publishTime
          data := m.data }
  | none => .error (.unknownChannel m.header.sequence m.header.channelId)

/-- `MessageStream::next`. -/
def MessageStream.next : Nat → RawMessageStream δ →
    Next (RawMessageStream δ) (Except McapError Message) :=
  RawMessageStream.nextWith D ChannelAccumulator.message

/-! ## What a stream yields -/

/-- **The items of a stream**, as a function of what the reader yields. -/
def streamItems {α : Type} (look : ChannelAccumulator → RawMessage → Except McapError α) :
    ChannelAccumulator → List (UInt8 × Bytes) → Final → List (Except McapError α) × Ending
  | _, [], .finished => ([], .finished)
  | _, [], .failed e => ([.error e], .finished)
  | _, [], .panicked => ([], .panicked)
  | acc, (opcode, data) :: evs, fin =>
      match parseRecord opcode data with
      | .panic => ([], .panicked)
      | .err e => ([.error e], .finished)
      | .ok (.message header data) =>
          let (items, ending) := streamItems look acc evs fin
          (look acc ⟨header, data⟩ :: items, ending)
      | .ok record =>
          match acc.observe record with
          | .ok acc => streamItems look acc evs fin
          | .error e => ([.error e], .finished)

section
variable {α : Type} {look : ChannelAccumulator → RawMessage → Except McapError α}
  {acc : ChannelAccumulator} {opcode : UInt8} {data : Bytes} {evs : List (UInt8 × Bytes)}
  {fin : Final}

theorem streamItems_message {header : MessageHeader} {payload : Bytes}
    (hp : parseRecord opcode data = .ok (.message header payload)) :
    streamItems look acc ((opcode, data) :: evs) fin =
      (look acc ⟨header, payload⟩ :: (streamItems look acc evs fin).1,
        (streamItems look acc evs fin).2) := by
  rw [streamItems, hp]

theorem streamItems_observe {record : Record} {acc' : ChannelAccumulator}
    (hp : parseRecord opcode data = .ok record) (hm : ∀ header data, record ≠ .message header data)
    (hacc : acc.observe record = .ok acc') :
    streamItems look acc ((opcode, data) :: evs) fin = streamItems look acc' evs fin := by
  rw [streamItems, hp]
  cases record with
  | message header data => exact absurd rfl (hm header data)
  | _ => simp only [hacc]

theorem streamItems_refuse {record : Record} {e : McapError}
    (hp : parseRecord opcode data = .ok record) (hm : ∀ header data, record ≠ .message header data)
    (hacc : acc.observe record = .error e) :
    streamItems look acc ((opcode, data) :: evs) fin = ([.error e], .finished) := by
  rw [streamItems, hp]
  cases record with
  | message header data => exact absurd rfl (hm header data)
  | _ => simp only [hacc]

end

/-- **Good records.**  From the accumulator `acc` the records `evs` are parsed and taken in, and
`ms` are the messages among them, each with the channels read before it. -/
inductive Collects : ChannelAccumulator → List (UInt8 × Bytes) →
    List (ChannelAccumulator × RawMessage) → ChannelAccumulator → Prop
  | nil (acc) : Collects acc [] [] acc
  | message {acc opcode data header payload evs ms acc'} :
      parseRecord opcode data = .ok (.message header payload) → Collects acc evs ms acc' →
      Collects acc ((opcode, data) :: evs) ((acc, ⟨header, payload⟩) :: ms) acc'
  | observe {acc acc₁ opcode data record evs ms acc'} :
      parseRecord opcode data = .ok record → (∀ header payload, record ≠ .message header payload) →
      acc.observe record = .ok acc₁ → Collects acc₁ evs ms acc' →
      Collects acc ((opcode, data) :: evs) ms acc'

/-- **The messages of good records are yielded**, and then what follows. -/
theorem streamItems_append {α : Type} {look : ChannelAccumulator → RawMessage → Except McapError α}
    {acc acc' : ChannelAccumulator} {evs evs' : List (UInt8 × Bytes)}
    {ms : List (ChannelAccumulator × RawMessage)} {fin : Final} (h : Collects acc evs ms acc') :
    streamItems look acc (evs ++ evs') fin =
      (ms.map (fun m => look m.1 m.2) ++ (streamItems look acc' evs' fin).1,
        (streamItems look acc' evs' fin).2) := by
  induction h with
  | nil acc => rfl
  | message hp _ ih => rw [List.cons_append, streamItems_message hp, ih]; rfl
  | observe hp hm hacc _ ih => rw [List.cons_append, streamItems_observe hp hm hacc, ih]

theorem streamItems_collects {α : Type}
    {look : ChannelAccumulator → RawMessage → Except McapError α} {acc acc' : ChannelAccumulator}
    {evs : List (UInt8 × Bytes)} {ms : List (ChannelAccumulator × RawMessage)}
    (h : Collects acc evs ms acc') :
    streamItems look acc evs .finished = (ms.map (fun m => look m.1 m.2), .finished) := by
  have happ : streamItems look acc (evs ++ []) .finished = _ := streamItems_append h
  rw [List.append_nil] at happ
  rw [happ, streamItems, List.append_nil]

theorem streamItems_eq_nil {α : Type} {look : ChannelAccumulator → RawMessage → Except McapError α}
    {acc : ChannelAccumulator} {evs : List (UInt8 × Bytes)} {fin : Final}
    (h : streamItems look acc evs fin = ([], .finished)) :
    fin = .finished ∧ ∃ acc', Collects acc evs [] acc' := by
  induction evs generalizing acc with
  | nil =>
    cases fin with
    | finished => exact ⟨rfl, acc, .nil acc⟩
    | failed e => cases h
    | panicked => cases h
  | cons ev evs ih =>
    obtain ⟨opcode, data⟩ := ev
    rcases hp : parseRecord opcode data with record | e | _
    · by_cases hm : ∃ header payload, record = .message header payload
      · obtain ⟨header, payload, rfl⟩ := hm
        rw [streamItems_message hp] at h
        cases h
      · have hm : ∀ header payload, record ≠ .message header payload := fun a b h => hm ⟨a, b, h⟩
        rcases hacc : acc.observe record with e | acc₁
        · rw [streamItems_refuse hp hm hacc] at h
          cases h
        · rw [streamItems_observe hp hm hacc] at h
          obtain ⟨hfin, acc', hc⟩ := ih h
          exact ⟨hfin, acc', .observe hp hm hacc hc⟩
    · rw [streamItems, hp] at h
      cases h
    · rw [streamItems, hp] at h
      cases h

variable {D}

theorem RawMessageStream.comes {s : InnerReader δ} {acc : ChannelAccumulator}
    {y : Next (InnerReader δ) (Except McapError Record)}
    {x : Next (RawMessageStream δ) (Except McapError RawMessage)}
    (h : Comes (InnerReader.next D) s y) (hx : ∀ k, RawMessageStream.react acc k y = x) :
    Comes (RawMessageStream.next D) ⟨s, false, acc⟩ x := by
  obtain ⟨N, hN⟩ := h
  refine ⟨N + 1, ?_⟩
  rintro (_ | fuel) hf
  · omega
  · rw [RawMessageStream.next, if_neg (by simp), hN (fuel + 1) (by omega), hx]

section
variable {α : Type} {look : ChannelAccumulator → RawMessage → Except McapError α}
  {s : InnerReader δ} {acc : ChannelAccumulator} {s' : InnerReader δ}

theorem RawMessageStream.comes_with {y : Next (InnerReader δ) (Except McapError Record)}
    {x : Next (RawMessageStream δ) (Except McapError RawMessage)}
    (h : Comes (InnerReader.next D) s y) (hx : ∀ k, RawMessageStream.react acc k y = x) :
    Comes (RawMessageStream.nextWith D look) ⟨s, false, acc⟩ (RawMessageStream.looked look x) := by
  obtain ⟨N, hN⟩ := RawMessageStream.comes h hx
  refine ⟨N, fun fuel hf => ?_⟩
  rw [RawMessageStream.nextWith, hN fuel hf]

theorem RawMessageStream.comes_of_observe {acc' : ChannelAccumulator} {record : Record}
    {x : Next (RawMessageStream δ) (Except McapError α)}
    (h : Comes (InnerReader.next D) s (.item (.ok record) s'))
    (hm : ∀ header data, record ≠ .message header data) (hacc : acc.observe record = .ok acc')
    (hx : Comes (RawMessageStream.nextWith D look) ⟨s', false, acc'⟩ x) :
    Comes (RawMessageStream.nextWith D look) ⟨s, false, acc⟩ x := by
  obtain ⟨N, hN⟩ := h
  obtain ⟨M, hM⟩ := hx
  refine ⟨max N M + 1, ?_⟩
  rintro (_ | fuel) hf
  · omega
  · have hreact : ∀ k, RawMessageStream.react acc k (.item (.ok record) s') = k ⟨s', false, acc'⟩ := by
      intro k
      cases record with
      | message header data => exact absurd rfl (hm header data)
      | _ => simp only [RawMessageStream.react, hacc]
    rw [RawMessageStream.nextWith, RawMessageStream.next, if_neg (by simp),
      hN (fuel + 1) (by omega), hreact]
    exact hM fuel (by omega)

theorem RawMessageStream.drains_done (s : InnerReader δ) (acc : ChannelAccumulator) :
    Drains (RawMessageStream.nextWith D look) ⟨s, true, acc⟩ [] .finished := by
  have hended : Comes (RawMessageStream.nextWith D look) ⟨s, true, acc⟩ (.ended ⟨s, true, acc⟩) := by
    refine ⟨1, ?_⟩
    rintro (_ | fuel) hf
    · omega
    · rfl
  exact .ended hended

theorem RawMessageStream.drains_error {e : McapError}
    (h : Comes (InnerReader.next D) s (.item (.error e) s')) :
    Drains (RawMessageStream.nextWith D look) ⟨s, false, acc⟩ [.error e] .finished :=
  .item (comes_with (x := .item (.error e) ⟨s', true, acc⟩) h fun _ => rfl) (drains_done s' acc)

theorem RawMessageStream.drains_refused {record : Record} {e : McapError}
    (h : Comes (InnerReader.next D) s (.item (.ok record) s'))
    (hm : ∀ header data, record ≠ .message header data) (he : acc.observe record = .error e) :
    Drains (RawMessageStream.nextWith D look) ⟨s, false, acc⟩ [.error e] .finished := by
  have hreact : ∀ k, RawMessageStream.react acc k (.item (.ok record) s') =
      (.item (.error e) ⟨s', true, acc⟩ : Next (RawMessageStream δ) _) := by
    intro k
    cases record with
    | message header data => exact absurd rfl (hm header data)
    | _ => simp only [RawMessageStream.react, he]
  exact .item (comes_with h hreact) (drains_done s' acc)

/-- **A stream yields the items of its records**, whatever is done with its messages. -/
theorem RawMessageStream.drains {buf : Bytes} {r : LinearReader δ} {evs : List (UInt8 × Bytes)}
    {fin : Final} (h : Observes D r buf evs fin) (acc : ChannelAccumulator) :
    Drains (RawMessageStream.nextWith D look) ⟨⟨buf, r⟩, false, acc⟩
      (streamItems look acc evs fin).1 (streamItems look acc evs fin).2 := by
  induction evs generalizing buf r acc with
  | nil =>
    have hfront := InnerReader.front h
    cases fin with
    | finished =>
      obtain ⟨s', hc⟩ := hfront
      have hended : Comes (RawMessageStream.nextWith D look) ⟨⟨buf, r⟩, false, acc⟩
        (.ended ⟨s', true, acc⟩) := comes_with (x := .ended ⟨s', true, acc⟩) hc fun _ => rfl
      exact .ended hended
    | failed e =>
      obtain ⟨s', hc⟩ := hfront
      exact drains_error hc
    | panicked => exact .panic (comes_with (x := .panic) hfront fun _ => rfl)
  | cons ev evs ih =>
    obtain ⟨opcode, data⟩ := ev
    obtain ⟨s', hc, hrest⟩ := InnerReader.front h
    rw [parsedItem] at hc
    rcases hp : parseRecord opcode data with record | e | _
    · rw [hp] at hc
      by_cases hm : ∃ header data, record = .message header data
      · obtain ⟨header, payload, rfl⟩ := hm
        rw [streamItems_message hp]
        have hitem : Comes (RawMessageStream.nextWith D look) ⟨⟨buf, r⟩, false, acc⟩
            (.item (look acc ⟨header, payload⟩) ⟨s', false, acc⟩) :=
          comes_with (x := .item (.ok ⟨header, payload⟩) ⟨s', false, acc⟩) hc fun _ => rfl
        exact .item hitem (ih hrest acc)
      · have hm : ∀ header data, record ≠ .message header data := fun a b h => hm ⟨a, b, h⟩
        rcases hacc : acc.observe record with e | acc'
        · rw [streamItems_refuse hp hm hacc]
          exact drains_refused hc hm hacc
        · rw [streamItems_observe hp hm hacc]
          exact (ih hrest acc').of_comes fun out hout => comes_of_observe hc hm hacc hout
    · rw [hp] at hc
      rw [streamItems, hp]
      exact drains_error hc
    · rw [hp] at hc
      rw [streamItems, hp]
      exact .panic (comes_with (x := .panic) hc fun _ => rfl)

end

theorem RawMessageStream.nextWith_ok :
    RawMessageStream.nextWith D (fun _ m => .ok m) = RawMessageStream.next D := by
  funext fuel s
  unfold RawMessageStream.nextWith
  generalize RawMessageStream.next D fuel s = x
  rcases x with (_ | _) | _ | _ | _ <;> rfl

end

end Mcap

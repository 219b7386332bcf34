import Mcap.FileReading
import Mcap.Fragmentation
import Mcap.Prefixes
import Mcap.StoredLz4
import Mcap.Streams

/-! # The streams and the end of the data section

`RawMessageStream` and `MessageStream` are documented to stop at the end of the data section
and not to read the summary.  They do not stop there: the `DataEnd` record is skipped like
any other, and the records behind it are read up to the end of the file.

So what follows the data section matters, unless it is `Quiet`: it is read to its end without
an error, it holds no message, and its schemas and channels agree with those before.  Then
the streams yield what the data section alone determines (`streams_of_quiet`), and on input
whose compressed chunks are intact not otherwise (`streams_stop_iff_quiet`).  A file that is
cut behind its `DataEnd` record is not quiet (`streams_read_on`).
-/
namespace Mcap

section
variable {δ : Type} {D : Decompressor δ} (Δ : Decoding D none) (ignoreEndMagic : Bool)

/-- **A valid data section**, up to and including its `DataEnd` record: it is read without an
error, its records are parsed and taken in, and `ms` are its messages.  `acc` are the schemas
and the channels at its end. -/
structure DataSection (bytes : Bytes) (ms : List (ChannelAccumulator × RawMessage))
    (acc : ChannelAccumulator) : Prop where
  valid : ∃ evs data,
    Yields (o := ChunkFlattener.options ignoreEndMagic) Δ
      (Spec.init (ChunkFlattener.options ignoreEndMagic) bytes) (evs ++ [(op.DATA_END, data)])
      ⟨.fileRecord, [], none⟩ ∧
    Collects .empty (evs ++ [(op.DATA_END, data)]) ms acc

/-- **Nothing of note follows**: `rest` is read to its end without an error, and from the
schemas and channels `acc` its records are taken in, with no message among them. -/
def Quiet (acc : ChannelAccumulator) (rest : Bytes) : Prop :=
  ∃ evs acc', Parses (o := ChunkFlattener.options ignoreEndMagic) D Δ ⟨.fileRecord, rest, none⟩
    evs .finished ∧ Collects acc evs [] acc'

variable (D)

/-- The streams over `bytes` yield the messages `ms`, and then end. -/
def StreamsYield (bytes : Bytes) (ms : List (ChannelAccumulator × RawMessage)) : Prop :=
  Drains (RawMessageStream.next D) (RawMessageStream.new ignoreEndMagic bytes)
      (ms.map fun m => .ok m.2) .finished ∧
    Drains (MessageStream.next D) (RawMessageStream.new ignoreEndMagic bytes)
      (ms.map fun m => m.1.message m.2) .finished

variable {D Δ ignoreEndMagic} {bytes rest : Bytes} {ms : List (ChannelAccumulator × RawMessage)}
  {acc : ChannelAccumulator}

/-- A stream over a file with a valid data section yields its messages, and then the items of
what follows. -/
theorem DataSection.drains (h : DataSection Δ ignoreEndMagic bytes ms acc) {α : Type}
    (look : ChannelAccumulator → RawMessage → Except McapError α) {evs : List (UInt8 × Bytes)}
    {fin : Final} (hp : Parses (o := ChunkFlattener.options ignoreEndMagic) D Δ
      ⟨.fileRecord, rest, none⟩ evs fin) :
    Drains (RawMessageStream.nextWith D look) (RawMessageStream.new ignoreEndMagic (bytes ++ rest))
      (ms.map (fun m => look m.1 m.2) ++ (streamItems look acc evs fin).1)
      (streamItems look acc evs fin).2 := by
  obtain ⟨evs₀, data, hy, hc⟩ := h.valid
  have hparses := (hy.append rest).parses hp
  have hobs := observes_of_parses hparses
    (sim_init (o := ChunkFlattener.options ignoreEndMagic) Δ (bytes ++ rest))
  have hd : Drains (RawMessageStream.nextWith D look) _ _ _ := RawMessageStream.drains hobs .empty
  rw [streamItems_append hc] at hd
  exact hd

/-- **The streams yield the data section**, if what follows it is quiet. -/
theorem streams_of_quiet (h : DataSection Δ ignoreEndMagic bytes ms acc)
    (hq : Quiet Δ ignoreEndMagic acc rest) : StreamsYield D ignoreEndMagic (bytes ++ rest) ms := by
  obtain ⟨evs, acc', hp, hc⟩ := hq
  have hraw := h.drains (fun _ m => .ok m) hp
  have hmsg := h.drains ChannelAccumulator.message hp
  rw [streamItems_collects hc, List.map_nil, List.append_nil] at hraw hmsg
  rw [RawMessageStream.nextWith_ok] at hraw
  exact ⟨hraw, hmsg⟩

theorem quiet_of_streams (h : DataSection Δ ignoreEndMagic bytes ms acc)
    (hi : Intact (o := ChunkFlattener.options ignoreEndMagic) Δ ⟨.fileRecord, rest, none⟩)
    (hs : StreamsYield D ignoreEndMagic (bytes ++ rest) ms) : Quiet Δ ignoreEndMagic acc rest := by
  obtain ⟨evs, fin, hp⟩ := parses_of_intact hi
  have hraw := h.drains (fun _ m => .ok m) hp
  rw [RawMessageStream.nextWith_ok] at hraw
  obtain ⟨hitems, hfin⟩ := hraw.unique hs.1
  -- there are no items left for what follows
  have hnil : (streamItems (fun _ m => .ok m) acc evs fin).1 = [] := List.append_right_eq_self.mp hitems
  obtain ⟨rfl, acc', hc⟩ := streamItems_eq_nil (Prod.ext hnil hfin)
  exact ⟨evs, acc', hp, hc⟩

/-- **When the streams depend only on the data section**: on two files with the same data
section they yield its messages and then end, if what follows is quiet in both; and, where
the compressed chunks that follow are intact, only then. -/
theorem streams_stop_iff_quiet (h : DataSection Δ ignoreEndMagic bytes ms acc)
    (rest₁ rest₂ : Bytes) :
    (Quiet Δ ignoreEndMagic acc rest₁ ∧ Quiet Δ ignoreEndMagic acc rest₂ →
      StreamsYield D ignoreEndMagic (bytes ++ rest₁) ms ∧
        StreamsYield D ignoreEndMagic (bytes ++ rest₂) ms) ∧
    (Intact (o := ChunkFlattener.options ignoreEndMagic) Δ ⟨.fileRecord, rest₁, none⟩ →
      Intact (o := ChunkFlattener.options ignoreEndMagic) Δ ⟨.fileRecord, rest₂, none⟩ →
      StreamsYield D ignoreEndMagic (bytes ++ rest₁) ms ∧
        StreamsYield D ignoreEndMagic (bytes ++ rest₂) ms →
      Quiet Δ ignoreEndMagic acc rest₁ ∧ Quiet Δ ignoreEndMagic acc rest₂) := by
  constructor
  · rintro ⟨hq₁, hq₂⟩
    exact ⟨streams_of_quiet h hq₁, streams_of_quiet h hq₂⟩
  · rintro hi₁ hi₂ ⟨hs₁, hs₂⟩
    exact ⟨quiet_of_streams h hi₁ hs₁, quiet_of_streams h hi₂ hs₂⟩

end

/-- A channel without a schema. -/
def sentChannel : ChannelRecord where
  id := 1
  schemaId := 0
  topic := "t"
  messageEncoding := ""
  metadata := ∅

/-- A message on it. -/
def sentHeader : MessageHeader where
  channelId := 1
  sequence := 0
  logTime := 5
  publishTime := 5

/-- The records of a file with one message. -/
def sentRecords : List Record := [.channel sentChannel, .message sentHeader [7]]

/-- What comes up to the end of its data section. -/
def sentSection : Bytes :=
  MAGIC ++ (content sentRecords ++ frame op.DATA_END (DataEnd.bytes ⟨0⟩))

/-- What comes behind it. -/
def sentSummary : Bytes := frame op.FOOTER (Footer.bytes ⟨0, 0, 0⟩) ++ MAGIC

/-- The channels at the end of its data section. -/
def sentChannels : ChannelAccumulator where
  schemas := ∅
  channels := (∅ : BTreeMap UInt16 Channel).insert 1 ⟨1, "t", none, "", ∅⟩

theorem collects_sentSection :
    Collects .empty (sentRecords.map Record.raw ++ [(op.DATA_END, DataEnd.bytes ⟨0⟩)])
      [(sentChannels, ⟨sentHeader, [7]⟩)] sentChannels := by
  have hchannel : parseRecord op.CHANNEL sentChannel.bytes = .ok (.channel sentChannel) :=
    parse_body (r := .channel sentChannel) ⟨by decide, by decide, stringMapFits_empty⟩
  have hmessage : parseRecord op.MESSAGE (sentHeader.bytes ++ [7]) = .ok (.message sentHeader [7]) :=
    parse_body (r := .message sentHeader [7]) trivial
  have hend : parseRecord op.DATA_END (DataEnd.bytes ⟨0⟩) = .ok (.dataEnd ⟨0⟩) :=
    parse_body (r := .dataEnd ⟨0⟩) trivial
  exact .observe hchannel (fun _ _ h => by cases h) rfl
    (.message hmessage (.observe hend (fun _ _ h => by cases h) rfl (.nil _)))

theorem sentSection_valid {δ : Type} {D : Decompressor δ} (Δ : Decoding D none) :
    DataSection Δ false sentSection [(sentChannels, ⟨sentHeader, [7]⟩)] sentChannels := by
  refine ⟨_, _, .again (turn_startMagic_append rfl _ none) ?_, collects_sentSection⟩
  have hrecords : Yields (o := ChunkFlattener.options false) Δ ⟨.fileRecord, content sentRecords ++
      frame op.DATA_END (DataEnd.bytes ⟨0⟩), none⟩ _ _ :=
    yields_records (admits_of_none rfl _) (by simp +decide [sentRecords, Record.Plain]) (by decide) _
      none
  have hend := yields_dataEnd (Δ := Δ) (o := ChunkFlattener.options false) (d := ⟨0⟩) (h := none)
    (admits_of_none rfl _) (fun _ h => by cases h) []
  rw [List.append_nil] at hend
  exact hrecords.trans hend

theorem sentSummary_quiet {δ : Type} {D : Decompressor δ} (Δ : Decoding D none)
    (acc : ChannelAccumulator) : Quiet Δ false acc sentSummary := by
  have hend : parseRecord op.FOOTER (Footer.bytes ⟨0, 0, 0⟩) = .ok (.footer ⟨0, 0, 0⟩) :=
    parse_body (r := .footer ⟨0, 0, 0⟩) trivial
  exact ⟨_, acc, parses_footer_magic (o := ChunkFlattener.options false) (admits_of_none rfl _)
    (fun _ h => by cases h), .observe hend (fun _ _ h => by cases h) rfl (.nil _)⟩

/-- The file of one message, twice. -/
theorem streams_stop_on_message :
    StreamsYield storedLz4 false (sentSection ++ sentSummary) [(sentChannels, ⟨sentHeader, [7]⟩)] ∧
      StreamsYield storedLz4 false (sentSection ++ sentSummary)
        [(sentChannels, ⟨sentHeader, [7]⟩)] := by
  have hq := sentSummary_quiet storedDecoding sentChannels
  exact (streams_stop_iff_quiet (sentSection_valid storedDecoding) sentSummary sentSummary).1 ⟨hq, hq⟩

/-- **The streams read on behind the data section**: where the file is cut there, they end in
an error. -/
theorem streams_read_on :
    ¬ ∀ (δ : Type) (D : Decompressor δ) (Δ : Decoding D none) (ignoreEndMagic : Bool)
      (bytes rest₁ rest₂ : Bytes) (ms : List (ChannelAccumulator × RawMessage))
      (acc : ChannelAccumulator), DataSection Δ ignoreEndMagic bytes ms acc →
      ∀ items ending,
        Drains (RawMessageStream.next D) (RawMessageStream.new ignoreEndMagic (bytes ++ rest₁))
            items ending →
          Drains (RawMessageStream.next D) (RawMessageStream.new ignoreEndMagic (bytes ++ rest₂))
            items ending := by
  intro h
  have hvalid := sentSection_valid storedDecoding
  have hwhole := (streams_of_quiet hvalid (sentSummary_quiet storedDecoding sentChannels)).1
  have hsame := h _ _ _ _ _ _ [] _ _ hvalid _ _ hwhole
  -- the reader wants to see the end magic
  have hcut : Parses (o := ChunkFlattener.options false) storedLz4 storedDecoding
      ⟨.fileRecord, [], none⟩ [] (.failed .unexpectedEof) := .eof rfl
  have hraw := hvalid.drains (fun _ m => .ok m) hcut
  rw [RawMessageStream.nextWith_ok] at hraw
  have hitems := (hraw.unique hsame).1
  exact absurd (congrArg List.length hitems) (by decide)

end Mcap

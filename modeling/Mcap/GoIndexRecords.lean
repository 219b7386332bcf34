import Mcap.GoCollections
import Mcap.GoStatistics

/-! # Round trips of index records in the Go library

`WriteChunkIndex` and `WriteStatistics` are methods that a caller may use on records of any origin.
Both write the entries of the channels of the writer only.  `WriteStatistics` announces the length of
these, and loses the other entries; `WriteChunkIndex` announces that of all entries, so that the fields
behind them are taken for entries.

`indexRecords_round_trip_iff` is about any writer that the methods lead to: its channel ids are
distinct, and so are no more than a length field can count.
-/
namespace Mcap
namespace Go

/-! ## Writers -/

namespace Writer
variable {κ : Type}

/-- The channel ids of a writer are those of its channels, each of them once. -/
structure Registered (w : Writer κ) : Prop where
  nodup : w.channelIDs.Nodup
  known : ∀ id ∈ w.channelIDs, w.channels.contains id = true

/-- These writers have the same channels. -/
def SameChannels (w w' : Writer κ) : Prop :=
  w'.channelIDs = w.channelIDs ∧ w'.channels = w.channels

theorem SameChannels.trans {w w' w'' : Writer κ} (h : SameChannels w w') (h' : SameChannels w' w'') :
    SameChannels w w'' := ⟨h'.1.trans h.1, h'.2.trans h.2⟩

theorem Registered.of_same {w w' : Writer κ} (h : w.Registered) (hsame : SameChannels w w') :
    w'.Registered := by
  refine ⟨?_, ?_⟩
  · rw [hsame.1]
    exact h.nodup
  · rw [hsame.1, hsame.2]
    exact h.known

theorem Registered.addChannel {w : Writer κ} (h : w.Registered) (c : Channel) :
    (w.addChannel c).Registered := by
  unfold Writer.addChannel
  by_cases hc : w.channels.contains c.id = true
  · rw [if_pos hc]
    exact h
  · rw [if_neg hc]
    have hnew : c.id ∉ w.channelIDs := fun hmem => hc (h.known _ hmem)
    refine ⟨List.nodup_append.mpr ⟨h.nodup, List.nodup_singleton _, ?_⟩, fun id hid => ?_⟩
    · intro id hid id' hid' heq
      rw [List.mem_singleton] at hid'
      exact hnew (hid' ▸ heq ▸ hid)
    · show (w.channels.insert c.id c).contains id = true
      rcases List.mem_append.mp hid with hold | hsingle
      · rw [Std.ExtTreeMap.contains_insert, h.known id hold, Bool.or_true]
      · rw [List.mem_singleton.mp hsingle, Std.ExtTreeMap.contains_insert_self]

theorem same_addSchema (w : Writer κ) (s : Schema) : SameChannels w (w.addSchema s) := by
  unfold Writer.addSchema
  split
  · exact ⟨rfl, rfl⟩
  · exact ⟨rfl, rfl⟩

theorem same_writeAttachment {w w' : Writer κ} {a : Attachment} (h : w.writeAttachment a = .ok w') :
    SameChannels w w' := by
  unfold writeAttachment at h
  simp only at h
  split at h
  · cases h
  · cases h
    exact ⟨rfl, rfl⟩

theorem same_writeAttachmentIndex (w : Writer κ) (idx : AttachmentIndex) :
    SameChannels w (w.writeAttachmentIndex idx) := by
  unfold writeAttachmentIndex
  split
  · exact ⟨rfl, rfl⟩
  · exact ⟨rfl, rfl⟩

theorem same_writeStatistics (w : Writer κ) (s : Statistics) :
    SameChannels w (w.writeStatistics s) := by
  unfold writeStatistics
  split
  · exact ⟨rfl, rfl⟩
  · exact ⟨rfl, rfl⟩

theorem same_writeSummaryOffset (w : Writer κ) (s : SummaryOffset) :
    SameChannels w (w.writeSummaryOffset s) := by
  unfold writeSummaryOffset
  split
  · exact ⟨rfl, rfl⟩
  · exact ⟨rfl, rfl⟩

theorem same_writeMessageIndexes (w : Writer κ) (idxs : List MessageIndex) :
    SameChannels w (w.writeMessageIndexes idxs).1 := by
  suffices hgen : ∀ (w : Writer κ) offsets,
      SameChannels w (idxs.foldl placeMessageIndex (w, offsets)).1 from hgen w ∅
  induction idxs with
  | nil => exact fun w _ => ⟨rfl, rfl⟩
  | cons idx idxs ih =>
    intro w offsets
    rw [List.foldl_cons]
    unfold placeMessageIndex
    split
    · exact ih w offsets
    · exact SameChannels.trans ⟨rfl, rfl⟩ (ih _ _)

theorem same_writeChunkWithIndexes (w : Writer κ) (c : Chunk) (idxs : List MessageIndex) :
    SameChannels w (w.writeChunkWithIndexes c idxs) := by
  unfold writeChunkWithIndexes
  split
  · exact ⟨rfl, rfl⟩
  · obtain ⟨hids, hchannels⟩ := same_writeMessageIndexes
      { w with
        w := (w.w.write (op.CHUNK :: (le 8 (c.top.length + c.records.length) ++ c.top))).write
          c.records } (if w.opts.skipMessageIndexing then [] else idxs)
    exact ⟨hids, hchannels⟩

section
variable {w w' : Writer κ}

theorem registered_foldlM {α : Type} {write : Writer κ → α → Except Error (Writer κ)}
    (hwrite : ∀ w w' a, w.Registered → write w a = .ok w' → w'.Registered) {l : List α}
    (hw : w.Registered) (h : l.foldlM write w = .ok w') : w'.Registered := by
  induction l generalizing w with
  | nil =>
    cases h
    exact hw
  | cons a l ih =>
    obtain ⟨w₁, ha, h⟩ := bind_eq_ok h
    exact ih (hwrite _ _ _ hw ha) h

theorem registered_writeKnown {α : Type} {find : UInt16 → Option α}
    {write : Writer κ → α → Except Error (Writer κ)} {id : UInt16}
    (hwrite : ∀ w w' a, w.Registered → write w a = .ok w' → w'.Registered) (hw : w.Registered)
    (h : writeKnown find write w id = .ok w') : w'.Registered := by
  unfold writeKnown at h
  split at h
  · exact hwrite _ _ _ hw h
  · cases h
    exact hw

theorem registered_writeGroup {present : Bool} {groupOpcode : UInt8}
    {write : Writer κ → Except Error (Writer κ)} {state state' : Writer κ × List SummaryOffset}
    (hwrite : ∀ w w', w.Registered → write w = .ok w' → w'.Registered)
    (hw : state.1.Registered) (h : writeGroup present groupOpcode write state = .ok state') :
    state'.1.Registered := by
  unfold writeGroup at h
  split at h
  · obtain ⟨w₁, hwritten, h⟩ := bind_eq_ok h
    cases h
    exact hwrite _ _ hw hwritten
  · cases h
    exact hw

theorem registered_foldl {α : Type} {write : Writer κ → α → Writer κ}
    (hwrite : ∀ w a, SameChannels w (write w a)) (hw : w.Registered) (l : List α) :
    (l.foldl write w).Registered := by
  induction l generalizing w with
  | nil => exact hw
  | cons a l ih => exact ih (hw.of_same (hwrite w a))

end

section
variable [ResettableWriteCloser κ] {w w' : Writer κ}

theorem same_writeCompressed {opcode : UInt8} {data : Bytes}
    (h : w.writeCompressed opcode data = .ok w') : SameChannels w w' := by
  obtain ⟨⟨c, head⟩, -, h⟩ := bind_eq_ok h
  obtain ⟨⟨c', tail⟩, -, h⟩ := bind_eq_ok h
  cases h
  exact ⟨rfl, rfl⟩

theorem same_writeData {opcode : UInt8} {data : Bytes} (h : w.writeData opcode data = .ok w') :
    SameChannels w w' := by
  unfold writeData at h
  split at h
  · exact same_writeCompressed h
  · cases h
    exact ⟨rfl, rfl⟩

theorem same_writeSchema {s : Schema} (h : w.writeSchema s = .ok w') : SameChannels w w' := by
  unfold writeSchema at h
  split at h
  · cases h
  · obtain ⟨w₁, hdata, h⟩ := bind_eq_ok h
    cases h
    exact (same_writeData hdata).trans (same_addSchema w₁ s)

theorem registered_writeChannel {c : Channel} (hw : w.Registered) (h : w.writeChannel c = .ok w') :
    w'.Registered := by
  unfold writeChannel at h
  split at h
  · cases h
  · obtain ⟨w₁, hdata, h⟩ := bind_eq_ok h
    cases h
    exact (hw.of_same (same_writeData hdata)).addChannel c

theorem same_flushActiveChunk (h : w.flushActiveChunk = .ok w') : SameChannels w w' := by
  unfold flushActiveChunk at h
  split at h
  · cases h
    exact ⟨rfl, rfl⟩
  · obtain ⟨⟨c, tail⟩, -, h⟩ := bind_eq_ok h
    cases h
    obtain ⟨hids, hchannels⟩ := same_writeChunkWithIndexes
      { w with compressed := [], compressedWriter := c.reset } (w.activeChunk tail)
      (activeIndexes { w with compressed := [], compressedWriter := c.reset })
    exact ⟨hids, hchannels⟩

theorem same_writeMessage {m : Message} (h : w.writeMessage m = .ok w') : SameChannels w w' := by
  unfold writeMessage at h
  split at h
  · cases h
  · obtain ⟨w₁, hrecord, h⟩ := bind_eq_ok h
    cases h
    have hsame : SameChannels (w.countMessage m) w₁ := by
      unfold writeMessageRecord at hrecord
      split at hrecord
      · obtain ⟨w₂, hcompressed, hrecord⟩ := bind_eq_ok hrecord
        have hindexed : SameChannels (w.countMessage m) ((w.countMessage m).indexMessage m) :=
          ⟨rfl, rfl⟩
        have hpacked := hindexed.trans (same_writeCompressed hcompressed)
        have hcovered : SameChannels w₂ (w₂.coverMessage m) := ⟨rfl, rfl⟩
        simp only at hrecord
        split at hrecord
        · exact hpacked.trans (hcovered.trans (same_flushActiveChunk hrecord))
        · cases hrecord
          exact hpacked.trans hcovered
      · cases hrecord
        exact ⟨rfl, rfl⟩
    exact SameChannels.trans ⟨rfl, rfl⟩ (hsame.trans ⟨rfl, rfl⟩)

/-! ### The end of a file -/

theorem context_eq_ok {α : Type} {s : String} {x : Except Error α} {a : α}
    (h : context s x = .ok a) : x = .ok a := by
  cases x with
  | error e => cases h
  | ok a' => exact h

theorem registered_writeSummarySection {offsets : List SummaryOffset} (hw : w.Registered)
    (h : w.writeSummarySection = .ok (w', offsets)) : w'.Registered := by
  unfold writeSummarySection at h
  obtain ⟨s₁, hschemas, h⟩ := bind_eq_ok h
  have h₁ : s₁.1.Registered := registered_writeGroup (fun _ _ hw h =>
    registered_foldlM (fun _ _ _ hw h => registered_writeKnown (fun _ _ _ hw h =>
      hw.of_same (same_writeSchema (context_eq_ok h))) hw h) hw h) hw hschemas
  obtain ⟨s₂, hchannels, h⟩ := bind_eq_ok h
  have h₂ : s₂.1.Registered := registered_writeGroup (fun _ _ hw h =>
    registered_foldlM (fun _ _ _ hw h => registered_writeKnown (fun _ _ _ hw h =>
      registered_writeChannel hw (context_eq_ok h)) hw h) hw h) h₁ hchannels
  obtain ⟨s₃, hstatistics, h⟩ := bind_eq_ok h
  have h₃ : s₃.1.Registered := registered_writeGroup (fun w w' hw h => by
    cases h
    exact hw.of_same (same_writeStatistics _ _)) h₂ hstatistics
  obtain ⟨s₄, hchunks, h⟩ := bind_eq_ok h
  have h₄ : s₄.1.Registered := registered_writeGroup (fun w w' hw h => by
    cases h
    exact registered_foldl (fun w idx => (⟨rfl, rfl⟩ : SameChannels w (w.writeChunkIndex idx)))
      hw _) h₃ hchunks
  obtain ⟨s₅, hattachments, h⟩ := bind_eq_ok h
  have h₅ : s₅.1.Registered := registered_writeGroup (fun w w' hw h => by
    cases h
    exact registered_foldl same_writeAttachmentIndex hw _) h₄ hattachments
  exact registered_writeGroup (fun w w' hw h => by
    cases h
    exact registered_foldl (fun w idx => (⟨rfl, rfl⟩ : SameChannels w (w.writeMetadataIndex idx)))
      hw _) h₅ h

theorem registered_close (hw : w.Registered) (h : w.close = .ok w') : w'.Registered := by
  obtain ⟨w₁, hchunk, h⟩ := bind_eq_ok h
  have h₁ : w₁.Registered := by
    unfold closeChunk at hchunk
    split at hchunk
    · exact hw.of_same (same_flushActiveChunk (context_eq_ok hchunk))
    · cases hchunk
      exact hw
  unfold closeFlushed at h
  obtain ⟨⟨w₂, offsets⟩, hsummary, h⟩ := bind_eq_ok h
  have h₂ := registered_writeSummarySection (h₁.of_same (⟨rfl, rfl⟩ : SameChannels w₁ w₁.endData))
    (context_eq_ok hsummary)
  cases h
  refine Registered.of_same (?_ : (if w₂.opts.skipSummaryOffsets then w₂
    else offsets.foldl writeSummaryOffset w₂).Registered) ⟨rfl, rfl⟩
  split
  · exact h₂
  · exact registered_foldl same_writeSummaryOffset h₂ _

end

/-- The writers that `NewWriter` and the methods lead to.  The fields that are exported may be set. -/
inductive Reachable [ResettableWriteCloser κ] [Packages κ] : Writer κ → Prop
  | new {opts w} : newWriter opts = .ok w → Reachable w
  | set {w} (statistics : Statistics) (chunkIndexes : List ChunkIndex)
      (attachmentIndexes : List AttachmentIndex) (metadataIndexes : List MetadataIndex) :
      Reachable w → Reachable { w with statistics, chunkIndexes, attachmentIndexes, metadataIndexes }
  | header {w} (header : Header) : Reachable w → Reachable (w.writeHeader header)
  | addSchema {w} (s : Schema) : Reachable w → Reachable (w.addSchema s)
  | addChannel {w} (c : Channel) : Reachable w → Reachable (w.addChannel c)
  | schema {w w'} (s : Schema) : Reachable w → w.writeSchema s = .ok w' → Reachable w'
  | channel {w w'} (c : Channel) : Reachable w → w.writeChannel c = .ok w' → Reachable w'
  | message {w w'} (m : Message) : Reachable w → w.writeMessage m = .ok w' → Reachable w'
  | attachment {w w'} (a : Attachment) : Reachable w → w.writeAttachment a = .ok w' → Reachable w'
  | metadata {w} (m : Metadata) : Reachable w → Reachable (w.writeMetadata m)
  | messageIndex {w} (idx : MessageIndex) : Reachable w → Reachable (w.writeMessageIndex idx)
  | chunk {w} (c : Chunk) (messageIndexes : List MessageIndex) : Reachable w →
      Reachable (w.writeChunkWithIndexes c messageIndexes)
  | chunkIndex {w} (idx : ChunkIndex) : Reachable w → Reachable (w.writeChunkIndex idx)
  | attachmentIndex {w} (idx : AttachmentIndex) : Reachable w →
      Reachable (w.writeAttachmentIndex idx)
  | metadataIndex {w} (idx : MetadataIndex) : Reachable w → Reachable (w.writeMetadataIndex idx)
  | statistics {w} (s : Statistics) : Reachable w → Reachable (w.writeStatistics s)
  | summaryOffset {w} (s : SummaryOffset) : Reachable w → Reachable (w.writeSummaryOffset s)
  | dataEnd {w} (e : DataEnd) : Reachable w → Reachable (w.writeDataEnd e)
  | footer {w} (summaryStart summaryOffsetStart : UInt64) : Reachable w →
      Reachable (w.writeFooter summaryStart summaryOffsetStart)
  | close {w w'} : Reachable w → w.close = .ok w' → Reachable w'

theorem registered_start (opts : WriterOptions κ) (compressor : Compressor κ) :
    (Writer.start opts compressor).Registered :=
  ⟨List.nodup_nil, fun _ h => absurd h List.not_mem_nil⟩

/-- **The channels of every writer are registered.** -/
theorem Reachable.registered [ResettableWriteCloser κ] [Packages κ] {w : Writer κ}
    (h : w.Reachable) : w.Registered := by
  induction h with
  | @new opts w hnew =>
    unfold newWriter at hnew
    split at hnew
    · obtain ⟨⟨compressor, compression⟩, -, hnew⟩ := bind_eq_ok hnew
      cases hnew
      exact registered_start _ _
    · cases hnew
      exact registered_start _ _
  | set _ _ _ _ _ ih | header _ _ ih => exact ih.of_same ⟨rfl, rfl⟩
  | addSchema s _ ih => exact ih.of_same (same_addSchema _ s)
  | addChannel c _ ih => exact ih.addChannel c
  | schema _ _ hok ih => exact ih.of_same (same_writeSchema hok)
  | channel _ _ hok ih => exact registered_writeChannel ih hok
  | message _ _ hok ih => exact ih.of_same (same_writeMessage hok)
  | attachment _ _ hok ih => exact ih.of_same (same_writeAttachment hok)
  | metadata _ _ ih | messageIndex _ _ ih => exact ih.of_same ⟨rfl, rfl⟩
  | chunk c idxs _ ih => exact ih.of_same (same_writeChunkWithIndexes _ c idxs)
  | chunkIndex _ _ ih => exact ih.of_same ⟨rfl, rfl⟩
  | attachmentIndex idx _ ih => exact ih.of_same (same_writeAttachmentIndex _ idx)
  | metadataIndex _ _ ih => exact ih.of_same ⟨rfl, rfl⟩
  | statistics s _ ih => exact ih.of_same (same_writeStatistics _ s)
  | summaryOffset s _ ih => exact ih.of_same (same_writeSummaryOffset _ s)
  | dataEnd _ _ ih | footer _ _ _ ih => exact ih.of_same ⟨rfl, rfl⟩
  | close _ hok ih => exact registered_close ih hok

end Writer

/-! ## What is written, and what is read of it -/

section
variable {channelIDs : List UInt16} {m : BTreeMap UInt16 UInt64} {idx : ChunkIndex}

theorem channelEntries_subset : channelEntries channelIDs m ⊆ m.toList :=
  fun _ he => BTreeMap.mem_toList.mpr (mem_channelEntries.mp he).2

theorem mem_of_size_le (h : channelIDs.Nodup) (hsize : m.size ≤ (channelEntries channelIDs m).length)
    {k : UInt16} {v : UInt64} (hv : m[k]? = some v) : k ∈ channelIDs := by
  have hsub := List.subperm_of_subset (nodup_channelEntries h) (channelEntries_subset (m := m))
  have hperm := hsub.perm_of_length_le (by rw [Std.ExtTreeMap.length_toList]; exact hsize)
  exact (mem_channelEntries.mp (hperm.mem_iff.mpr (BTreeMap.mem_toList.mpr hv))).1

theorem size_le (m : BTreeMap UInt16 UInt64) : m.size ≤ 2 ^ 16 := by
  have hkeys := length_le_of_nodup (BTreeMap.nodup_keys_toList m)
  rwa [List.length_map, Std.ExtTreeMap.length_toList] at hkeys

theorem length_chunkIndexBody (channelIDs : List UInt16) (idx : ChunkIndex) :
    (idx.body channelIDs).length = 36 +
      (channelEntries channelIDs idx.messageIndexOffsets).length * 10 + 8 +
        (4 + idx.compression.length) + 8 + 8 := by
  simp only [ChunkIndex.body, List.length_append, length_u64, length_le, length_flatMap_intEntry,
    length_putPrefixedString]
  omega

/-- **Round trip of a chunk index** of channels of the writer. -/
theorem parseChunkIndex_body (h : channelIDs.Nodup)
    (hkeys : ∀ k v, idx.messageIndexOffsets[k]? = some v → k ∈ channelIDs)
    (hname : idx.compression.length < 2 ^ 32) : parseChunkIndex (idx.body channelIDs) = .ok idx := by
  have hperm := channelEntries_perm h hkeys
  have hsize : (channelEntries channelIDs idx.messageIndexOffsets).length =
      idx.messageIndexOffsets.size := by
    rw [hperm.length_eq, Std.ExtTreeMap.length_toList]
  have hlt := size_le idx.messageIndexOffsets
  have h0 := Rest.start (idx.body channelIDs)
  have h1 := h0.u64
  have h2 := h1.u64
  have h3 := h2.u64
  have h4 := h3.u64
  have h5 := h4.skip (length_le 4 _)
  have h6 := h5.skip (length_flatMap_intEntry _)
  have h7 := h6.u64
  have h8 := h7.prefixedString
  have h9 := h8.u64
  have hcount : getUint32 (idx.body channelIDs) (0 + 8 + 8 + 8 + 8) =
      .ok (.ofNat (idx.messageIndexOffsets.size * (2 + 8)), 36) := by
    unfold getUint32
    rw [getUint_of_rest h4, Nat.mod_eq_of_lt (by omega)]
    rfl
  have htoNat : (UInt32.ofNat (idx.messageIndexOffsets.size * (2 + 8))).toNat =
      (channelEntries channelIDs idx.messageIndexOffsets).length * 10 := by
    rw [UInt32.toNat_ofNat', Nat.mod_eq_of_lt (by omega), hsize]
  have hinner : Rest ((idx.body channelIDs).drop 36) 0
      ((channelEntries channelIDs idx.messageIndexOffsets).flatMap intEntry ++
        (u64 idx.messageIndexLength ++ (putPrefixedString idx.compression ++
          (u64 idx.compressedSize ++ u64 idx.uncompressedSize)))) := ⟨h5.drop, Nat.zero_le _⟩
  have hentries := getChannelEntries_of_rest "failed to read channel ID"
    "failed to read index offset" _ hinner
  rw [← List.append_nil (u64 idx.uncompressedSize)] at h9
  unfold parseChunkIndex
  refine (bind_field (getUint64_of_rest h0)).trans ((bind_field (getUint64_of_rest h1)).trans ?_)
  refine (bind_field (getUint64_of_rest h2)).trans ((bind_field (getUint64_of_rest h3)).trans ?_)
  refine (bind_field hcount).trans ?_
  simp only
  rw [htoNat, hentries, Nat.zero_add, BTreeMap.insertAll_of_perm hperm]
  refine (bind_field (getUint64_of_rest h6)).trans ?_
  refine (bind_field (getPrefixedString_of_rest hname h7)).trans ?_
  exact (bind_field (getUint64_of_rest h8)).trans ((bind_field (getUint64_of_rest h9)).trans rfl)

/-- **A chunk index reads back** if and only if it names no other channels than those of the writer. -/
theorem parseChunkIndex_body_iff (h : channelIDs.Nodup) :
    parseChunkIndex (idx.body channelIDs) = .ok idx ↔
      (∀ k v, idx.messageIndexOffsets[k]? = some v → k ∈ channelIDs) ∧
        idx.compression.length < 2 ^ 32 := by
  constructor
  · intro hparse
    obtain ⟨-, -, -, -, -, -, hlen, hname⟩ := parseChunkIndex_eq_ok hparse
    have hlt := size_le idx.messageIndexOffsets
    have hannounced : announced (idx.body channelIDs) 32 = idx.messageIndexOffsets.size * 10 := by
      have h4 := (Rest.start (idx.body channelIDs)).u64.u64.u64.u64
      unfold announced
      rw [h4.drop, List.take_left' (length_le 4 _), ofLe_le_of_lt (by omega)]
    rw [hannounced, length_chunkIndexBody] at hlen
    exact ⟨fun k v hv => mem_of_size_le h (by omega) hv, hname⟩
  · rintro ⟨hkeys, hname⟩
    exact parseChunkIndex_body h hkeys hname

/-- **Statistics read back** if and only if they count no other channels than those of the writer. -/
theorem parseStatistics_body_iff {s : Statistics} (h : channelIDs.Nodup) :
    parseStatistics (s.body channelIDs) = .ok s ↔
      ∀ k v, s.channelMessageCounts[k]? = some v → k ∈ channelIDs := by
  constructor
  · intro hparse k v hv
    have hcounts : BTreeMap.insertAll ∅ (channelEntries channelIDs s.channelMessageCounts) =
        s.channelMessageCounts :=
      congrArg Statistics.channelMessageCounts
        (Res.ok.inj ((parseStatistics_written s h).symm.trans hparse))
    rw [← hcounts] at hv
    rcases BTreeMap.mem_of_getElem?_insertAll hv with hmem | hempty
    · exact (mem_channelEntries.mp hmem).1
    · rw [Std.ExtTreeMap.getElem?_empty] at hempty
      cases hempty
  · exact parseStatistics_body h

end

/-! ## The records that a writer writes -/

section
variable {κ : Type} [ResettableWriteCloser κ] [Packages κ]

/-- **Index records read back** if and only if they name no other channels than those of the writer,
whatever led to this writer.  For a chunk index the name of the compression has to fit into its length
field. -/
theorem indexRecords_round_trip_iff {w : Writer κ} (h : w.Reachable) :
    (∀ idx : ChunkIndex, ∃ body, (w.writeChunkIndex idx).w.out = w.w.out ++ frame op.CHUNK_INDEX body ∧
      (parseChunkIndex body = .ok idx ↔
        (∀ k v, idx.messageIndexOffsets[k]? = some v → k ∈ w.channelIDs) ∧
          idx.compression.length < 2 ^ 32)) ∧
    ∀ s : Statistics, w.opts.skipStatistics = false →
      ∃ body, (w.writeStatistics s).w.out = w.w.out ++ frame op.STATISTICS body ∧
        (parseStatistics body = .ok s ↔
          ∀ k v, s.channelMessageCounts[k]? = some v → k ∈ w.channelIDs) := by
  have hnodup := h.registered.nodup
  refine ⟨fun idx => ⟨_, ?_, parseChunkIndex_body_iff hnodup⟩,
    fun s hwritten => ⟨_, ?_, parseStatistics_body_iff hnodup⟩⟩
  · rw [Writer.writeChunkIndex, Writer.writeRecord_eq]
    rfl
  · rw [Writer.writeStatistics, hwritten, if_neg Bool.false_ne_true, Writer.writeRecord_eq]
    rfl

end

/-- A writer that knows the channel 1. -/
def oneChannel : Writer Plain := (Writer.start smallChunks .bufCloser).addChannel ⟨1, 0, [], [], ∅⟩

theorem reachable_oneChannel : oneChannel.Reachable :=
  .addChannel ⟨1, 0, [], [], ∅⟩ (.new (show newWriter smallChunks = .ok _ from rfl))

/-- An index of a chunk with messages of these channels. -/
def indexOf (channels : List UInt16) : ChunkIndex where
  messageStartTime := 1
  messageEndTime := 2
  chunkStartOffset := 8
  chunkLength := 100
  messageIndexOffsets := BTreeMap.insertAll ∅ (channels.map fun id => (id, 108))
  messageIndexLength := 31
  compression := []
  compressedSize := 50
  uncompressedSize := 50

/-- The index of a chunk with messages of a known channel is written and reads back. -/
theorem indexRecords_round_trip_known : ∃ body,
    (oneChannel.writeChunkIndex (indexOf [1])).w.out = oneChannel.w.out ++ frame op.CHUNK_INDEX body ∧
      parseChunkIndex body = .ok (indexOf [1]) := by
  obtain ⟨body, hout, hparse⟩ := (indexRecords_round_trip_iff reachable_oneChannel).1 (indexOf [1])
  refine ⟨body, hout, hparse.mpr ⟨fun k v hv => ?_, by decide⟩⟩
  rcases BTreeMap.mem_of_getElem?_insertAll hv with hmem | hempty
  · cases List.mem_singleton.mp hmem
    exact List.mem_singleton_self 1
  · rw [Std.ExtTreeMap.getElem?_empty] at hempty
    cases hempty

/-- **The fields behind the entries are lost** if a chunk index names an unknown channel: ten bytes of
them are taken for its entry. -/
theorem indexRecords_round_trip_fails :
    (oneChannel.writeChunkIndex (indexOf [2])).w.out =
      oneChannel.w.out ++ frame op.CHUNK_INDEX ((indexOf [2]).body oneChannel.channelIDs) ∧
    ¬ ∃ idx, parseChunkIndex ((indexOf [2]).body oneChannel.channelIDs) = .ok idx := by
  refine ⟨by decide +kernel, ?_⟩
  rintro ⟨idx, hparse⟩
  have herr : parseChunkIndex ((indexOf [2]).body oneChannel.channelIDs) =
      .err (.wrapped "failed to read compression" .shortBuffer) := by decide +kernel
  cases herr.symm.trans hparse

end Go
end Mcap

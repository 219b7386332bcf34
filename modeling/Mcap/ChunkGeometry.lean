import Mathlib.Order.Bounds.Basic
import Mcap.Checksums
import Mcap.IndexedReader

/-! # Where chunks and messages are

The index of a chunk says where the chunk is in the file, what its header says, and where
its message indexes are; a message index says where the messages of a channel are in the
chunk.  A writer fills them from three counters: the position in the stream, the position in
the sink of the chunk, and the count of uncompressed bytes.  `chunk_geometry` says that they
are right: each of them names the very bytes of the file, or of the records of the chunk, that
it should.
-/
namespace Mcap

/-! ## The messages of a chunk -/

/-- The messages among the records with the offsets where they start, if the first record is
at `pos`. -/
def messagesAt : Nat → List Record → List (Nat × MessageHeader)
  | _, [] => []
  | pos, .message header data :: rs =>
      (pos, header) :: messagesAt (pos + (Record.message header data).frame.length) rs
  | pos, r :: rs => messagesAt (pos + r.frame.length) rs

/-- The messages of a channel, with the offsets where they start. -/
def channelMessages (id : UInt16) (records : List Record) : List (Nat × MessageHeader) :=
  (messagesAt 0 records).filter (·.2.channelId = id)

/-- The log times of the messages among the records. -/
def logTimes (records : List Record) : List UInt64 := (messagesAt 0 records).map (·.2.logTime)

/-- The message that starts at an offset. -/
def messageAt (pos : Nat) : Record → List (Nat × MessageHeader)
  | .message header _ => [(pos, header)]
  | _ => []

theorem messagesAt_append (pos : Nat) (records : List Record) (r : Record) :
    messagesAt pos (records ++ [r]) =
      messagesAt pos records ++ messageAt (pos + (content records).length) r := by
  induction records generalizing pos with
  | nil => cases r <;> rfl
  | cons r' rs ih =>
    have hlen : pos + (content (r' :: rs)).length = pos + r'.frame.length + (content rs).length := by
      rw [Nat.add_assoc, ← List.length_append]
      rfl
    rw [hlen]
    cases r' <;> simp only [List.cons_append, messagesAt, ih]

theorem messagesAt_mem {pos n : Nat} {records : List Record} {header : MessageHeader}
    (h : (n, header) ∈ messagesAt pos records) : ∃ before data after,
      records = before ++ .message header data :: after ∧ n = pos + (content before).length := by
  induction records generalizing pos with
  | nil => cases h
  | cons r rs ih =>
    have hlater : (n, header) ∈ messagesAt (pos + r.frame.length) rs → ∃ before data after,
        r :: rs = before ++ .message header data :: after ∧ n = pos + (content before).length := by
      intro h
      obtain ⟨before, data, after, rfl, rfl⟩ := ih h
      refine ⟨r :: before, data, after, rfl, ?_⟩
      rw [Nat.add_assoc, ← List.length_append]
      rfl
    cases r with
    | message header' data =>
      rcases List.mem_cons.mp h with heq | h
      · cases heq
        exact ⟨[], data, rs, rfl, rfl⟩
      · exact hlater h
    | _ => exact hlater h

/-- `lo` and `hi` are the least and the greatest of the times. -/
def Bounds (times : List UInt64) (lo hi : UInt64) : Prop :=
  IsLeast {t | t ∈ times} lo ∧ IsGreatest {t | t ∈ times} hi

theorem Bounds.extend {times : List UInt64} {lo hi : UInt64} (h : Bounds times lo hi) (t : UInt64) :
    Bounds (times ++ [t]) (min lo t) (max hi t) := by
  obtain ⟨⟨hlo, hleast⟩, hhi, hgreatest⟩ := h
  have hold : ∀ x ∈ times ++ [t], lo ≤ x ∧ x ≤ hi ∨ x = t := by
    intro x hx
    rcases List.mem_append.mp hx with hx | hx
    · exact .inl ⟨hleast hx, hgreatest hx⟩
    · exact .inr (List.mem_singleton.mp hx)
  have hmin : ∀ a b : UInt64, min a b = if a ≤ b then a else b := fun _ _ => rfl
  have hmax : ∀ a b : UInt64, max a b = if a ≤ b then b else a := fun _ _ => rfl
  refine ⟨⟨?_, ?_⟩, ?_, ?_⟩
  · show min lo t ∈ times ++ [t]
    rw [hmin]
    split
    · exact List.mem_append_left _ hlo
    · exact List.mem_append_right _ (List.mem_singleton_self t)
  · intro x hx
    rw [hmin]
    rcases hold x hx with hx | rfl <;> split <;> grind
  · show max hi t ∈ times ++ [t]
    rw [hmax]
    split
    · exact List.mem_append_right _ (List.mem_singleton_self t)
    · exact List.mem_append_left _ hhi
  · intro x hx
    rw [hmax]
    rcases hold x hx with hx | rfl <;> split <;> grind

theorem logTimes_append (records : List Record) (r : Record) :
    logTimes (records ++ [r]) = logTimes records ++ (messageAt 0 r).map (·.2.logTime) := by
  rw [logTimes, messagesAt_append, List.map_append, ← logTimes]
  cases r <;> rfl

/-- **The time bounds of a chunk** are the least and the greatest log time of its messages,
if it has any. -/
theorem timeBounds_spec (records : List Record) :
    (timeBounds records = none ∧ logTimes records = []) ∨
      ∃ lo hi, timeBounds records = some (lo, hi) ∧ Bounds (logTimes records) lo hi := by
  induction records using List.reverseRecOn with
  | nil => exact .inl ⟨rfl, rfl⟩
  | append_singleton records r ih =>
    rw [timeBounds_append, logTimes_append]
    cases r with
    | message header data =>
      refine .inr ?_
      rcases ih with ⟨hnone, hnil⟩ | ⟨lo, hi, hsome, hbounds⟩
      · rw [hnone, hnil]
        refine ⟨header.logTime, header.logTime, rfl, ⟨List.mem_singleton_self _, ?_⟩,
          List.mem_singleton_self _, ?_⟩
        · intro x hx
          obtain rfl := List.mem_singleton.mp hx
          exact UInt64.le_refl _
        · intro x hx
          obtain rfl := List.mem_singleton.mp hx
          exact UInt64.le_refl _
      · rw [hsome]
        exact ⟨_, _, rfl, hbounds.extend header.logTime⟩
    | _ =>
      simp only [boundsStep, messageAt, List.map_nil, List.append_nil]
      exact ih

/-- The entry of a message in the index of its channel. -/
def indexEntry (m : Nat × MessageHeader) : MessageIndexEntry := ⟨m.2.logTime, .ofNat m.1⟩

theorem channelMessages_append (id : UInt16) (records : List Record) (r : Record) :
    channelMessages id (records ++ [r]) = channelMessages id records ++
      (messageAt (content records).length r).filter (·.2.channelId = id) := by
  rw [channelMessages, messagesAt_append, List.filter_append, Nat.zero_add]
  rfl

/-- The list, unless it is empty. -/
def unlessNil {α : Type} : List α → Option (List α)
  | [] => none
  | a :: l => some (a :: l)

theorem unlessNil_append_singleton {α : Type} (l : List α) (a : α) :
    unlessNil (l ++ [a]) = some (l ++ [a]) := by
  cases l <;> rfl

theorem getD_unlessNil {α : Type} (l : List α) : (unlessNil l).getD [] = l := by
  cases l <;> rfl

/-- **The index of a channel** lists its messages in order, with their offsets. -/
theorem getElem?_channelIndexes (id : UInt16) (records : List Record) :
    (channelIndexes records)[id]? = unlessNil ((channelMessages id records).map indexEntry) := by
  induction records using List.reverseRecOn with
  | nil => exact Std.ExtTreeMap.getElem?_empty
  | append_singleton records r ih =>
    rw [channelIndexes_append, channelMessages_append, List.map_append]
    cases r with
    | message header data =>
      simp only [indexStep, messageAt]
      by_cases hid : header.channelId = id
      · subst hid
        rw [BTreeMap.getElem?_insert_self, List.filter_cons_of_pos (by simp), List.filter_nil,
          List.map_singleton, unlessNil_append_singleton, Std.ExtTreeMap.getD_eq_getD_getElem?, ih,
          getD_unlessNil]
        rfl
      · rw [BTreeMap.getElem?_insert_ne _ hid, ih, List.filter_cons_of_neg (by simpa using hid),
          List.filter_nil, List.map_nil, List.append_nil]
    | _ =>
      simp only [indexStep, messageAt, List.filter_nil, List.map_nil, List.append_nil]
      exact ih

/-! ## Positions -/

section
variable {o : WriteOptions} {pos : Nat} {es : List Entry} {records : List Record}

theorem drop_withOffsets {p : Nat} {e : Entry} (tail : Bytes) (h : (pos, e) ∈ withOffsets o p es) :
    p ≤ pos ∧ ∃ rest, (es.flatMap (Entry.bytes o) ++ tail).drop (pos - p) = e.bytes o ++ rest := by
  induction es generalizing p with
  | nil => cases h
  | cons e' es ih =>
    rcases List.mem_cons.mp h with heq | h
    · cases heq
      refine ⟨Nat.le_refl _, es.flatMap (Entry.bytes o) ++ tail, ?_⟩
      rw [Nat.sub_self, List.drop_zero, List.flatMap_cons, List.append_assoc]
    · obtain ⟨hle, rest, hrest⟩ := ih h
      refine ⟨by omega, rest, ?_⟩
      rw [List.flatMap_cons, List.append_assoc, List.drop_append, List.drop_eq_nil_of_le (by omega),
        List.nil_append, ← hrest]
      congr 1
      omega

theorem mem_of_withOffsets {p : Nat} {e : Entry} (h : (pos, e) ∈ withOffsets o p es) : e ∈ es := by
  induction es generalizing p with
  | nil => cases h
  | cons e' es ih =>
    rcases List.mem_cons.mp h with heq | h
    · cases heq
      exact List.mem_cons_self
    · exact List.mem_cons_of_mem _ (ih h)

/-- **An entry is where it is placed.** -/
theorem drop_placedEntries {e : Entry} (tail : Bytes) (h : (pos, e) ∈ placedEntries o es) :
    ∃ rest, (dataBytes o es ++ tail).drop pos = e.bytes o ++ rest := by
  obtain ⟨hle, rest, hrest⟩ := drop_withOffsets tail h
  refine ⟨rest, ?_⟩
  rw [dataBytes, List.append_assoc, List.drop_append, List.drop_eq_nil_of_le hle, List.nil_append,
    hrest]

theorem map_fst_indexOffsets (pos : Nat) (l : List (UInt16 × List MessageIndexEntry)) :
    (indexOffsets pos l).map Prod.fst = l.map Prod.fst := by
  induction l generalizing pos with
  | nil => rfl
  | cons e l ih => rw [indexOffsets, List.map_cons, ih, List.map_cons]

theorem mem_indexOffsets (pos : Nat) (before after : List (UInt16 × List MessageIndexEntry))
    (e : UInt16 × List MessageIndexEntry) :
    (e.1, UInt64.ofNat (pos + (content (before.map indexRecord)).length)) ∈
      indexOffsets pos (before ++ e :: after) := by
  induction before generalizing pos with
  | nil => exact List.mem_cons_self
  | cons e' before ih =>
    refine List.mem_cons_of_mem _ ?_
    have hlen : pos + (content ((e' :: before).map indexRecord)).length =
        pos + (indexRecord e').frame.length + (content (before.map indexRecord)).length := by
      rw [Nat.add_assoc, ← List.length_append]
      rfl
    rw [hlen]
    exact ih _

/-! ## The geometry of a chunk -/

/-- A chunk with its position. -/
def chunkAt : Nat × Entry → Option (Nat × List Record × Bytes)
  | (pos, .chunk records out) => some (pos, records, out)
  | _ => none

/-- The chunks of the entries with their positions in the file. -/
def placedChunks (o : WriteOptions) (es : List Entry) : List (Nat × List Record × Bytes) :=
  (placedEntries o es).filterMap chunkAt

/-- **The message indexes of a chunk**, in the file from `pos` on: the channels that have
messages in the chunk, each with its messages. -/
structure IndexGeometry (file : Bytes) (pos : Nat) (records : List Record) (index : ChunkIndex)
    (indexes : List MessageIndex) : Prop where
  bytes : (file.drop pos).take index.messageIndexLength.toNat =
    content (indexes.map Record.messageIndex)
  length : index.messageIndexLength.toNat = (content (indexes.map Record.messageIndex)).length
  nodup : (indexes.map MessageIndex.channelId).Nodup
  channels : ∀ id, id ∈ indexes.map MessageIndex.channelId ↔ channelMessages id records ≠ []
  keys : ∀ id, index.messageIndexOffsets.contains id = true ↔ channelMessages id records ≠ []
  offsets : ∀ before i after, indexes = before ++ i :: after →
    ∃ offset, index.messageIndexOffsets[i.channelId]? = some offset ∧
      offset.toNat = pos + (content (before.map Record.messageIndex)).length
  entries : ∀ i ∈ indexes, i.records.map (fun e => (e.offset.toNat, e.logTime)) =
    (channelMessages i.channelId records).map fun m => (m.1, m.2.logTime)

/-- **The index of a chunk** that is at `pos` in the file. -/
structure ChunkGeometry (o : WriteOptions) (file : Bytes) (index : ChunkIndex) (pos : Nat)
    (records : List Record) (out : Bytes) : Prop where
  start : index.chunkStartOffset.toNat = pos
  record : (file.drop index.chunkStartOffset.toNat).take index.chunkLength.toNat =
    (Record.chunk (chunkHeader o records out) out).frame
  length : index.chunkLength.toNat = (Record.chunk (chunkHeader o records out) out).frame.length
  times : index.messageStartTime = (chunkHeader o records out).messageStartTime ∧
    index.messageEndTime = (chunkHeader o records out).messageEndTime
  compression : index.compression = (chunkHeader o records out).compression
  sizes : index.compressedSize = (chunkHeader o records out).compressedSize ∧
    index.uncompressedSize = (chunkHeader o records out).uncompressedSize
  compressedSize : index.compressedSize.toNat = out.length
  uncompressedSize : index.uncompressedSize.toNat = (content records).length
  noMessages : logTimes records = [] → index.messageStartTime = 0 ∧ index.messageEndTime = 0
  bounds : logTimes records ≠ [] →
    Bounds (logTimes records) index.messageStartTime index.messageEndTime
  data : ∃ offset, index.compressedDataOffset = .ok offset ∧
    offset.toNat = pos + 9 + (chunkHeader o records out).bytes.length ∧
    (file.drop offset.toNat).take out.length = out
  starts : ∀ n header, (n, header) ∈ messagesAt 0 records →
    ∃ data rest, (content records).drop n = (Record.message header data).frame ++ rest
  indexes : ∃ indexes, IndexGeometry file (pos + index.chunkLength.toNat) records index indexes

theorem toNat_ofNat_lt {n : Nat} (h : n < 2 ^ 64) : (UInt64.ofNat n).toNat = n := by
  rw [UInt64.toNat_ofNat']
  exact Nat.mod_eq_of_lt h

theorem drop_messagesAt {n : Nat} {header : MessageHeader}
    (h : (n, header) ∈ messagesAt 0 records) :
    n + 31 ≤ (content records).length ∧
      ∃ data rest, (content records).drop n = (Record.message header data).frame ++ rest := by
  obtain ⟨before, data, after, rfl, rfl⟩ := messagesAt_mem h
  have hsplit : content (before ++ .message header data :: after) =
      content before ++ ((Record.message header data).frame ++ content after) := by
    rw [content_append]
    rfl
  have hlen : 31 ≤ (Record.message header data).frame.length := by
    simp only [Record.frame, length_frame, Record.body, MessageHeader.bytes, List.length_append,
      length_u16, length_u32, length_u64]
    omega
  constructor
  · rw [hsplit, List.length_append, List.length_append]
    omega
  · refine ⟨data, content after, ?_⟩
    rw [hsplit, Nat.zero_add, List.drop_left]

theorem mem_toList_channelIndexes {id : UInt16}
    {entries : List MessageIndexEntry} : (id, entries) ∈ (channelIndexes records).toList ↔
      channelMessages id records ≠ [] ∧ entries = (channelMessages id records).map indexEntry := by
  rw [Std.ExtTreeMap.mem_toList_iff_getElem?_eq_some, getElem?_channelIndexes]
  cases channelMessages id records with
  | nil => simp [unlessNil]
  | cons m ms =>
    rw [List.map_cons, unlessNil, Option.some_inj]
    constructor
    · rintro rfl
      exact ⟨List.cons_ne_nil _ _, rfl⟩
    · rintro ⟨-, rfl⟩
      rfl

/-- The message indexes of a chunk, one for each channel that has messages. -/
def messageIndexes (records : List Record) : List MessageIndex :=
  (channelIndexes records).toList.map fun e => { channelId := e.1, records := e.2 }

theorem map_messageIndexes (hemit : o.emitMessageIndexes = true) (records : List Record) :
    (messageIndexes records).map Record.messageIndex = indexRecords o records := by
  rw [messageIndexes, indexRecords, writtenIndexes, if_pos hemit, List.map_map]
  rfl

theorem channelIds_messageIndexes (records : List Record) :
    (messageIndexes records).map MessageIndex.channelId =
      (channelIndexes records).toList.map Prod.fst := by
  rw [messageIndexes, List.map_map]
  rfl

theorem mem_channelIds_messageIndexes {id : UInt16} :
    id ∈ (messageIndexes records).map MessageIndex.channelId ↔
      channelMessages id records ≠ [] := by
  rw [channelIds_messageIndexes]
  constructor
  · intro h
    obtain ⟨⟨id', entries⟩, hmem, rfl⟩ := List.mem_map.mp h
    exact (mem_toList_channelIndexes.mp hmem).1
  · intro h
    exact List.mem_map_of_mem (mem_toList_channelIndexes.mpr ⟨h, rfl⟩)

/-- **The message indexes that a chunk is written with** are at the offsets that its index
names. -/
theorem indexGeometry {file : Bytes} {out rest : Bytes} (hemit : o.emitMessageIndexes = true)
    (hfile : file.drop (pos + (closedChunk o records out).frame.length) =
      content (indexRecords o records) ++ rest)
    (hend : pos + (closedChunk o records out).frame.length +
      (content (indexRecords o records)).length < 2 ^ 64)
    (hcontent : (content records).length < 2 ^ 64) :
    IndexGeometry file (pos + (closedChunk o records out).frame.length) records
      (chunkIndex o pos records out) (messageIndexes records) := by
  have hwritten : writtenIndexes o records = channelIndexes records := by
    rw [writtenIndexes, if_pos hemit]
  have hlength : (chunkIndex o pos records out).messageIndexLength.toNat =
      (content (indexRecords o records)).length := toNat_ofNat_lt (by omega)
  generalize hbase : pos + (closedChunk o records out).frame.length = base at *
  have hoffsets : (chunkIndex o pos records out).messageIndexOffsets =
      BTreeMap.insertAll ∅ (indexOffsets base (channelIndexes records).toList) := by
    rw [← hbase, ← hwritten]
    rfl
  have hids := map_fst_indexOffsets base (channelIndexes records).toList
  have hnodup : ((indexOffsets base (channelIndexes records).toList).map Prod.fst).Nodup := by
    rw [hids]
    exact BTreeMap.nodup_keys_toList _
  constructor
  case bytes => rw [hlength, hfile, map_messageIndexes hemit, List.take_left]
  case length => rw [hlength, map_messageIndexes hemit]
  case nodup =>
    rw [channelIds_messageIndexes]
    exact BTreeMap.nodup_keys_toList _
  case channels => exact fun id => mem_channelIds_messageIndexes
  case keys =>
    intro id
    rw [← mem_channelIds_messageIndexes, channelIds_messageIndexes, ← hids, hoffsets]
    constructor
    · intro h
      by_contra hnot
      rw [BTreeMap.contains_insertAll_empty hnot] at h
      cases h
    · intro h
      obtain ⟨⟨id', offset⟩, hmem, rfl⟩ := List.mem_map.mp h
      exact (BTreeMap.contains_iff _ _).mpr
        ⟨offset, BTreeMap.getElem?_insertAll_of_mem ∅ hnodup hmem⟩
  case offsets =>
    intro before i after h
    obtain ⟨before', tail, hsplit, rfl, htail⟩ := List.map_eq_append_iff.mp h
    obtain ⟨e, after', rfl, rfl, rfl⟩ := List.map_eq_cons_iff.mp htail
    have hbefore : (before'.map fun e =>
        ({ channelId := e.1, records := e.2 } : MessageIndex)).map Record.messageIndex =
          before'.map indexRecord := by
      rw [List.map_map]
      rfl
    have hmem := mem_indexOffsets base before' after' e
    rw [← hsplit] at hmem
    refine ⟨UInt64.ofNat (base + (content (before'.map indexRecord)).length), ?_, ?_⟩
    · rw [hoffsets]
      exact BTreeMap.getElem?_insertAll_of_mem ∅ hnodup hmem
    · rw [hbefore]
      refine toNat_ofNat_lt ?_
      have hcut : indexRecords o records =
          before'.map indexRecord ++ (e :: after').map indexRecord := by
        rw [indexRecords, hwritten, hsplit, List.map_append]
      have hle : (content (before'.map indexRecord)).length ≤
          (content (indexRecords o records)).length := by
        rw [hcut, content_append, List.length_append]
        exact Nat.le_add_right _ _
      omega
  case entries =>
    intro i hi
    obtain ⟨⟨id, entries⟩, hmem, rfl⟩ := List.mem_map.mp hi
    obtain ⟨-, rfl⟩ := mem_toList_channelIndexes.mp hmem
    show ((channelMessages id records).map indexEntry).map
      (fun e => (e.offset.toNat, e.logTime)) = _
    rw [List.map_map]
    refine List.map_congr_left fun m hm => ?_
    have hle := (drop_messagesAt (List.mem_of_mem_filter hm)).1
    show ((UInt64.ofNat m.1).toNat, m.2.logTime) = _
    rw [toNat_ofNat_lt (by omega)]

/-- **The index of a chunk is right**: it is the one that the writer has made where the chunk
is. -/
theorem chunkGeometry {out tail : Bytes} (hemit : o.emitMessageIndexes = true)
    (hplaced : (pos, .chunk records out) ∈ placedEntries o es)
    (hlen : (dataBytes o es ++ tail).length < 2 ^ 64)
    (hcontent : (content records).length < 2 ^ 64) :
    ChunkGeometry o (dataBytes o es ++ tail) (chunkIndex o pos records out) pos records out := by
  obtain ⟨rest, hrest⟩ := drop_placedEntries tail hplaced
  generalize dataBytes o es ++ tail = file at *
  rw [Entry.bytes_chunk, List.append_assoc] at hrest
  have hchunk : (closedChunk o records out).frame =
      opAndLen op.CHUNK (closedChunk o records out).body.length ++
        ((chunkHeader o records out).bytes ++ out) := rfl
  have hframe : (closedChunk o records out).frame.length =
      9 + (chunkHeader o records out).bytes.length + out.length := by
    rw [hchunk, List.length_append, List.length_append, Nat.add_assoc]
    rfl
  have hsize : file.length - pos = (closedChunk o records out).frame.length +
      ((content (indexRecords o records)).length + rest.length) := by
    rw [← List.length_drop, hrest, List.length_append, List.length_append]
  have hstart : (chunkIndex o pos records out).chunkStartOffset.toNat = pos :=
    toNat_ofNat_lt (by omega)
  have hlength : (chunkIndex o pos records out).chunkLength.toNat =
      (closedChunk o records out).frame.length := toNat_ofNat_lt (by omega)
  have hdata : pos + (49 + (utf8 (chunkIndex o pos records out).compression).length) =
      pos + 9 + (chunkHeader o records out).bytes.length := by
    rw [ChunkHeader.length_bytes]
    show pos + (49 + (utf8 (chunkHeader o records out).compression).length) = _
    omega
  constructor
  case start => exact hstart
  case record => rw [hstart, hlength, hrest, closedChunk, List.take_left]
  case length => exact hlength
  case times => exact ⟨rfl, rfl⟩
  case compression => rfl
  case sizes => exact ⟨rfl, rfl⟩
  case compressedSize => exact toNat_ofNat_lt (by omega)
  case uncompressedSize => exact toNat_ofNat_lt hcontent
  case noMessages =>
    intro hnil
    rcases timeBounds_spec records with ⟨hnone, -⟩ | ⟨lo, hi, -, hbounds⟩
    · simp only [chunkIndex, chunkHeader, hnone]
      exact ⟨rfl, rfl⟩
    · rw [hnil] at hbounds
      cases hbounds.1.1
  case bounds =>
    intro hne
    rcases timeBounds_spec records with ⟨-, hnil⟩ | ⟨lo, hi, hsome, hbounds⟩
    · exact absurd hnil hne
    · simp only [chunkIndex, chunkHeader, hsome]
      exact hbounds
  case data =>
    refine ⟨.ofNat (pos + 9 + (chunkHeader o records out).bytes.length), ?_, ?_, ?_⟩
    · simp only [ChunkIndex.compressedDataOffset, hstart, hdata]
      exact if_pos (by omega)
    · exact toNat_ofNat_lt (by omega)
    · have hskip : pos + 9 + (chunkHeader o records out).bytes.length =
          pos + (opAndLen op.CHUNK (closedChunk o records out).body.length ++
            (chunkHeader o records out).bytes).length := by
        rw [List.length_append, Nat.add_assoc]
        rfl
      rw [toNat_ofNat_lt (by omega), hskip, ← List.drop_drop, hrest, hchunk,
        ← List.append_assoc (opAndLen ..), List.append_assoc _ out, List.drop_left, List.take_left]
  case starts => exact fun n header h => (drop_messagesAt h).2
  case indexes =>
    have hbehind : file.drop (pos + (closedChunk o records out).frame.length) =
        content (indexRecords o records) ++ rest := by
      rw [← List.drop_drop, hrest, List.drop_left]
    rw [hlength]
    exact ⟨_, indexGeometry hemit hbehind (by omega) hcontent⟩

theorem chunkIndexesOf_eq_map (es : List Entry) : chunkIndexesOf o es =
    (placedChunks o es).map fun c => chunkIndex o c.1 c.2.1 c.2.2 := by
  rw [chunkIndexesOf, placedChunks, List.map_filterMap]
  congr 1
  funext x
  obtain ⟨pos, e⟩ := x
  cases e <;> rfl

theorem mem_placedChunks {c : Nat × List Record × Bytes}
    (h : c ∈ placedChunks o es) : (c.1, .chunk c.2.1 c.2.2) ∈ placedEntries o es := by
  obtain ⟨⟨pos, e⟩, hmem, heq⟩ := List.mem_filterMap.mp h
  cases e with
  | record => cases heq
  | chunk records out =>
    cases heq
    exact hmem

/-- **The chunk records** of a data section are those of the chunks. -/
theorem filter_chunk (hplain : ∀ r, .record r ∈ es → r.opcode ≠ op.CHUNK)
    (pos : Nat) : (es.flatMap (Entry.records o)).filter (·.opcode = op.CHUNK) =
      ((withOffsets o pos es).filterMap chunkAt).map fun c => closedChunk o c.2.1 c.2.2 := by
  induction es generalizing pos with
  | nil => rfl
  | cons e es ih =>
    have hrest := ih (fun r hr => hplain r (List.mem_cons_of_mem _ hr))
      (pos + (e.bytes o).length)
    rw [List.flatMap_cons, List.filter_append, hrest, withOffsets, List.filterMap_cons]
    cases e with
    | record r =>
      have hr := hplain r List.mem_cons_self
      rw [Entry.records, List.filter_cons_of_neg (by simpa using hr), List.filter_nil,
        List.nil_append]
      rfl
    | chunk records out =>
      have hindexes : (indexRecords o records).filter (·.opcode = op.CHUNK) = [] := by
        refine List.filter_eq_nil_iff.mpr fun r hr => ?_
        obtain ⟨e, -, rfl⟩ := List.mem_map.mp hr
        show ¬ decide (op.MESSAGE_INDEX = op.CHUNK) = true
        exact of_decide_eq_true rfl
      rw [Entry.records, List.filter_cons_of_pos (by simp [closedChunk, Record.opcode]), hindexes]
      rfl

theorem groupRecords_append (gs gs' : List Group) :
    groupRecords (gs ++ gs') = groupRecords gs ++ groupRecords gs' := List.flatMap_append

theorem filter_groupIf {enabled : Bool} {opcode code : UInt8} {rs : List Record}
    (h : ∀ r ∈ rs, r.opcode = opcode) :
    (groupRecords (groupIf enabled opcode rs)).filter (·.opcode = code) =
      if enabled = true ∧ opcode = code then rs else [] := by
  cases enabled with
  | false => rfl
  | true =>
    have hrecords : groupRecords (groupIf true opcode rs) = rs := List.append_nil rs
    rw [hrecords]
    split
    · rename_i hcode
      exact List.filter_eq_self.mpr fun r hr => by simpa [h r hr] using hcode.2
    · rename_i hcode
      exact List.filter_eq_nil_iff.mpr fun r hr => by simpa [h r hr] using hcode

theorem filter_chunkIndex (order : HashOrder) (summary : Summary) :
    (groupRecords (summaryGroups o order summary)).filter (·.opcode = op.CHUNK_INDEX) =
      if o.emitChunkIndexes then summary.chunkIndexes.map .chunkIndex else [] := by
  have hmap : ∀ {α : Type} (f : α → Record) (opcode : UInt8) (l : List α),
      (∀ a, (f a).opcode = opcode) → ∀ r ∈ l.map f, r.opcode = opcode := by
    intro α f opcode l hf r hr
    obtain ⟨a, -, rfl⟩ := List.mem_map.mp hr
    exact hf a
  have hstats : (groupRecords (statisticsGroup o.emitStatistics summary.stats)).filter
      (·.opcode = op.CHUNK_INDEX) = [] := by
    rcases summary.stats with _ | stats
    · rfl
    · rw [statisticsGroup, filter_groupIf (by simp [Record.opcode])]
      exact if_neg fun h => absurd h.2 (by decide)
  simp only [summaryGroups, groupRecords_append, List.filter_append, hstats]
  rw [filter_groupIf (hmap _ op.SCHEMA _ fun _ => rfl),
    filter_groupIf (hmap _ op.CHANNEL _ fun _ => rfl),
    filter_groupIf (hmap _ op.CHUNK_INDEX _ fun _ => rfl),
    filter_groupIf (hmap _ op.ATTACHMENT_INDEX _ fun _ => rfl),
    filter_groupIf (hmap _ op.METADATA_INDEX _ fun _ => rfl)]
  have hne : op.SCHEMA ≠ op.CHUNK_INDEX ∧ op.CHANNEL ≠ op.CHUNK_INDEX ∧
      op.ATTACHMENT_INDEX ≠ op.CHUNK_INDEX ∧ op.METADATA_INDEX ≠ op.CHUNK_INDEX := by decide
  simp only [hne.1, hne.2.1, hne.2.2.1, hne.2.2.2, and_false, if_false, List.nil_append,
    List.append_nil, and_true]
  cases summary.chunkIndexes <;> simp

end

/-! ## Files -/

section
variable {σ : Type} [Encoders σ] {o : WriteOptions} {w w' : Writer σ Stream} {order : HashOrder}
  {summary : Summary}

end

/-- Chunks with message indexes. -/
def indexedOptions : WriteOptions :=
  { plainOptions with useChunks := true, emitMessageIndexes := true, emitChunkIndexes := true }

/-- The number of chunk indexes of a summary. -/
def chunkCount : Res McapError Summary → Option Nat
  | .ok summary => some summary.chunkIndexes.length
  | _ => none

end Mcap

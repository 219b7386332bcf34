import Mcap.PyWriter
import Mcap.Positions

/-! # What a file of the Python library is made of

The records of a file have places, and a chunk has the records of message indexes behind it, which is
a group (`groups`).  An index says where a record is, and what it is about: `Group.chunkIndex`,
`attachmentIndexOf` and `metadataIndexOf` are the indexes that a file calls for.

All of this is read off the bytes of a file, and says nothing of who has written it.
-/
namespace Mcap
namespace Py

/-! ## Kinds of records -/

namespace McapRecord

def attachment? : McapRecord → Option Attachment
  | .attachment record => some record
  | _ => none

def attachmentIndex? : McapRecord → Option AttachmentIndex
  | .attachmentIndex record => some record
  | _ => none

def channel? : McapRecord → Option Channel
  | .channel record => some record
  | _ => none

def chunk? : McapRecord → Option Chunk
  | .chunk record => some record
  | _ => none

def chunkIndex? : McapRecord → Option ChunkIndex
  | .chunkIndex record => some record
  | _ => none

def dataEnd? : McapRecord → Option DataEnd
  | .dataEnd record => some record
  | _ => none

def footer? : McapRecord → Option Footer
  | .footer record => some record
  | _ => none

def message? : McapRecord → Option Message
  | .message record => some record
  | _ => none

def messageIndex? : McapRecord → Option MessageIndex
  | .messageIndex record => some record
  | _ => none

def metadata? : McapRecord → Option Metadata
  | .metadata record => some record
  | _ => none

def metadataIndex? : McapRecord → Option MetadataIndex
  | .metadataIndex record => some record
  | _ => none

def schema? : McapRecord → Option Schema
  | .schema record => some record
  | _ => none

def statistics? : McapRecord → Option Statistics
  | .statistics record => some record
  | _ => none

def summaryOffset? : McapRecord → Option SummaryOffset
  | .summaryOffset record => some record
  | _ => none

end McapRecord

/-! ## Times -/

/-- The least of some times, or 0. -/
def leastTime (times : List Nat) : Nat := times.min?.getD 0

/-- The greatest of some times, or 0. -/
def greatestTime (times : List Nat) : Nat := times.max?.getD 0

theorem leastTime_concat (times : List Nat) (t : Nat) :
    leastTime (times ++ [t]) = if times.length = 0 then t else min (leastTime times) t := by
  cases times with
  | nil => rfl
  | cons t' times =>
    rw [if_neg (show (t' :: times).length ≠ 0 from Nat.succ_ne_zero _)]
    unfold leastTime
    rw [List.cons_append, List.min?_cons', List.min?_cons', List.foldl_append]
    rfl

theorem greatestTime_concat (times : List Nat) (t : Nat) :
    greatestTime (times ++ [t]) = max (greatestTime times) t := by
  cases times with
  | nil => exact (Nat.zero_max t).symm
  | cons t' times =>
    unfold greatestTime
    rw [List.cons_append, List.max?_cons', List.max?_cons', List.foldl_append]
    rfl

/-! ## Places -/

/-- Where a record of a file is. -/
structure Place where
  offset : Nat
  length : Nat
  record : McapRecord
deriving DecidableEq

/-- The record of a frame at a position, if it can be read. -/
def placeOf (p : Nat × UInt8 × Bytes) : Option Place :=
  match recordOf p.2.1 p.2.2 with
  | .ok (some record) => some ⟨p.1, frameSize p.2, record⟩
  | _ => none

/-- The records of a file. -/
def located (file : Bytes) : List Place := (recordsAt file).filterMap placeOf

/-- The records of the data of a chunk; an offset is one in these data. -/
def locatedIn (data : Bytes) : List Place :=
  (positions frameSize 0 (splitRecords (data.length + 1) data)).filterMap placeOf

namespace Written

/-- The size of a record. -/
def size (x : Written) : Nat := x.bytes.length

theorem recordOf_eq (x : Written) : recordOf x.record.opcode x.body = .ok (some x.record) := by
  have h := x.reads [] 0
  rw [List.append_nil] at h
  unfold recordOf
  show (readRecord exactly x.record.opcode x.body.length ⟨x.body, 0⟩).map Prod.fst = _
  rw [h]
  rfl

/-- The place of a record that was written. -/
def place (p : Nat × Written) : Place := ⟨p.1, p.2.size, p.2.record⟩

/-- Records that were written one after the other, from a position on. -/
def placed (pos : Nat) (l : List Written) : List Place := (positions Written.size pos l).map place

/-- The bytes of records. -/
def allBytes (l : List Written) : Bytes := l.flatMap Written.bytes

@[simp] theorem allBytes_nil : allBytes [] = [] := rfl

@[simp] theorem allBytes_cons (x : Written) (l : List Written) :
    allBytes (x :: l) = x.bytes ++ allBytes l := rfl

@[simp] theorem allBytes_append (l l' : List Written) :
    allBytes (l ++ l') = allBytes l ++ allBytes l' := List.flatMap_append

theorem allBytes_eq (l : List Written) : allBytes l = frames (l.map framed) := by
  unfold allBytes frames
  rw [List.flatMap_map]
  rfl

theorem extent_eq (l : List Written) : extent Written.size l = (allBytes l).length := by
  induction l with
  | nil => rfl
  | cons x l ih =>
    rw [extent_cons, ih, allBytes_cons, List.length_append]
    rfl

theorem placed_cons (pos : Nat) (x : Written) (l : List Written) :
    placed pos (x :: l) = ⟨pos, x.size, x.record⟩ :: placed (pos + x.size) l := rfl

theorem placed_append (pos : Nat) (l l' : List Written) :
    placed pos (l ++ l') = placed pos l ++ placed (pos + (allBytes l).length) l' := by
  unfold placed
  rw [positions_append, List.map_append, extent_eq]

theorem map_record_placed (pos : Nat) (l : List Written) :
    (placed pos l).map Place.record = l.map Written.record := by
  induction l generalizing pos with
  | nil => rfl
  | cons x l ih => rw [placed_cons, List.map_cons, List.map_cons, ih]

theorem positions_framed (pos : Nat) (l : List Written) :
    (positions frameSize pos (l.map framed)).filterMap placeOf = placed pos l := by
  induction l generalizing pos with
  | nil => rfl
  | cons x l ih =>
    have hplace : placeOf (pos, x.framed) = some ⟨pos, x.size, x.record⟩ := by
      unfold placeOf framed
      simp only [x.recordOf_eq]
      rfl
    rw [List.map_cons, positions, List.filterMap_cons_some hplace, placed_cons]
    exact congrArg _ (ih _)

theorem body_lt (x : Written) : x.body.length < 2 ^ 64 := Nat.lt_of_le_of_lt x.bounded (by decide)

theorem forall_framed {l : List Written} : ∀ p ∈ l.map framed, p.2.length < 2 ^ 64 := by
  intro p hp
  obtain ⟨x, -, rfl⟩ := List.mem_map.mp hp
  exact x.body_lt

theorem length_le_allBytes (l : List Written) : l.length ≤ (allBytes l).length :=
  length_le_flatMap fun x _ h => by simpa [bytes] using congrArg List.length h

/-- **The records of a file that was written.** -/
theorem located_file (l : List Written) : located (MAGIC ++ (allBytes l ++ MAGIC)) = placed 8 l := by
  unfold located
  rw [allBytes_eq, recordsAt_frames forall_framed, positions_framed]

theorem locatedIn_allBytes (l : List Written) : locatedIn (allBytes l) = placed 0 l := by
  have hlen := length_le_allBytes l
  have hsplit : splitRecords ((allBytes l).length + 1) (allBytes l) = l.map framed := by
    rw [allBytes_eq] at hlen ⊢
    have h : splitRecords ((frames (l.map framed)).length + 1) (frames (l.map framed) ++ []) =
        l.map framed :=
      splitRecords_frames forall_framed (by decide) (by rw [List.length_map]; omega)
    rwa [List.append_nil] at h
  unfold locatedIn
  rw [hsplit, positions_framed]

end Written

/-! ## Indexes -/

/-- The index of an attachment. -/
def attachmentIndexOf (p : Place) : Option AttachmentIndex :=
  p.record.attachment?.map fun a =>
    { offset := p.offset
      length := p.length
      logTime := a.logTime
      createTime := a.createTime
      dataSize := a.data.length
      name := a.name
      mediaType := a.mediaType }

/-- The index of a metadata record. -/
def metadataIndexOf (p : Place) : Option MetadataIndex :=
  p.record.metadata?.map fun m => { offset := p.offset, length := p.length, name := m.name }

/-- The record of a message index, with its place. -/
structure IndexPlace where
  offset : Nat
  length : Nat
  index : MessageIndex

/-- The records of message indexes that come first. -/
def indexPlaces : List Place → List IndexPlace
  | [] => []
  | p :: rest =>
      match p.record.messageIndex? with
      | some index => ⟨p.offset, p.length, index⟩ :: indexPlaces rest
      | none => []

/-- A chunk and the records of message indexes behind it. -/
structure Group where
  offset : Nat
  length : Nat
  chunk : Chunk
  indexes : List IndexPlace

/-- The chunks among some records. -/
def groups : List Place → List Group
  | [] => []
  | p :: rest =>
      match p.record.chunk? with
      | some chunk => ⟨p.offset, p.length, chunk, indexPlaces rest⟩ :: groups rest
      | none => groups rest

/-- The index of a chunk. -/
def Group.chunkIndex (g : Group) : ChunkIndex where
  messageStartTime := g.chunk.messageStartTime
  messageEndTime := g.chunk.messageEndTime
  chunkStartOffset := g.offset
  chunkLength := g.length
  messageIndexOffsets := (∅ : Dict Nat Nat).setAll
    (g.indexes.map fun i => (i.index.channelId, i.offset))
  messageIndexLength := (g.indexes.map IndexPlace.length).sum
  compression := g.chunk.compression
  compressedSize := g.chunk.data.length
  uncompressedSize := g.chunk.uncompressedSize

/-- The entries of the index of a channel. -/
def entriesOf (id : Nat) (l : List Place) : List (Nat × Nat) :=
  l.filterMap fun p => p.record.message?.bind fun m =>
    if m.channelId = id then some (m.logTime, p.offset) else none

/-- The log times of messages. -/
def logTimes (l : List McapRecord) : List Nat := (l.filterMap McapRecord.message?).map Message.logTime

/-- **A chunk as it should be**, with these data: its times and its size are those of the data, and
behind it there is one index for each channel with messages, if there are to be any, with the
entries of these messages. -/
structure Group.Sound (D : Decompressors) (indexed : Bool) (g : Group) (data : Bytes) : Prop where
  unpacked : getChunkData D g.chunk true = .ok data
  size : g.chunk.uncompressedSize = data.length
  startTime : g.chunk.messageStartTime = leastTime (logTimes ((locatedIn data).map Place.record))
  endTime : g.chunk.messageEndTime = greatestTime (logTimes ((locatedIn data).map Place.record))
  nodup : (g.indexes.map fun i => i.index.channelId).Nodup
  entries : ∀ i ∈ g.indexes, i.index.records = entriesOf i.index.channelId (locatedIn data)
  covered : ∀ id, (∃ i ∈ g.indexes, i.index.channelId = id) ↔
    indexed = true ∧ entriesOf id (locatedIn data) ≠ []

theorem indexPlaces_append {l m : List Place} (hm : indexPlaces m = []) :
    indexPlaces (l ++ m) = indexPlaces l := by
  induction l with
  | nil => exact hm
  | cons p l ih =>
    rw [List.cons_append, indexPlaces, indexPlaces, ih]

theorem groups_append {l m : List Place} (hm : indexPlaces m = []) :
    groups (l ++ m) = groups l ++ groups m := by
  induction l with
  | nil => rfl
  | cons p l ih =>
    rw [List.cons_append, groups, groups, ih, indexPlaces_append hm]
    cases p.record.chunk? with
    | none => rfl
    | some chunk => rfl

theorem groups_eq_nil {l : List Place} (h : ∀ p ∈ l, p.record.chunk? = none) : groups l = [] := by
  induction l with
  | nil => rfl
  | cons p l ih =>
    rw [groups, h p List.mem_cons_self]
    exact ih fun q hq => h q (List.mem_cons_of_mem _ hq)

theorem entriesOf_append (id : Nat) (l m : List Place) :
    entriesOf id (l ++ m) = entriesOf id l ++ entriesOf id m := List.filterMap_append

theorem logTimes_append (l m : List McapRecord) : logTimes (l ++ m) = logTimes l ++ logTimes m := by
  unfold logTimes
  rw [List.filterMap_append, List.map_append]

/-! ## Contents -/

/-- What a record holds: a chunk holds records, and the index of a channel holds none. -/
def contentsOf (D : Decompressors) : McapRecord → List McapRecord
  | .chunk chunk => (breakupChunk D chunk true).toOption.getD []
  | .messageIndex _ => []
  | record => [record]

/-- What some records hold. -/
def contents (D : Decompressors) (l : List McapRecord) : List McapRecord := l.flatMap (contentsOf D)

theorem contents_append (D : Decompressors) (l m : List McapRecord) :
    contents D (l ++ m) = contents D l ++ contents D m := List.flatMap_append

/-- Records that may be in a chunk. -/
def McapRecord.InChunk : McapRecord → Prop
  | .schema _ => True
  | .channel _ => True
  | .message _ => True
  | _ => False

theorem readChunkRecord_eq {record : McapRecord} (h : record.InChunk) (stream : ReadMethod)
    (n : Nat) : readChunkRecord stream record.opcode n = readRecord stream record.opcode n := by
  have main : ∀ {α : Type} (r : Read PyError α) (f : α → McapRecord),
      (r >>= fun a => pure (some (f a))) = some <$> f <$> r := by
    intro α r f
    funext c
    rw [run_bind]
    show _ = ((r c).bind fun x => .ok (f x.1, x.2)).bind fun x => .ok (some x.1, x.2)
    cases r c with
    | error e => rfl
    | ok x => rfl
  cases record with
  | channel _ => exact main (Channel.read stream) .channel
  | message _ => exact main (Message.read stream n) .message
  | schema _ => exact main (Schema.read stream) .schema
  | _ => cases h

theorem Follows.reads {α : Type} {p q : Read PyError α} {n : Nat} {bytes : Bytes} {a : α}
    (h : Follows p q n) (hp : Reads p bytes a) : Reads q bytes a := by
  intro rest pos
  have hread := hp [] 0
  rw [List.append_nil] at hread
  obtain ⟨-, -, hmore⟩ := h _ _ _ hread
  have hq := hmore rest pos
  simpa using hq

theorem reads_breakupTurn {x : Written} (h : x.record.InChunk) (records : List McapRecord) :
    Reads (breakupTurn ReadDataStream.read records) x.bytes (records ++ [x.record]) := by
  have hrecord : Reads (readChunkRecord ReadDataStream.read x.record.opcode x.body.length) x.body
      (some x.record) := by
    rw [readChunkRecord_eq h]
    exact (follows_readRecord extends_read _ _).reads x.reads
  have hlength := reads_unpack (by decide) (show x.body.length < 256 ^ 8 from x.body_lt)
  exact (reads_readOpcode x.record.opcode).bind (hlength.bind (hrecord.bind_pure _))

/-- **The records of the data of a chunk are read.** -/
theorem breakup_allBytes {l : List Written} (h : ∀ x ∈ l, x.record.InChunk) :
    breakup (Written.allBytes l) = .ok (l.map Written.record) := by
  have hlen := Written.length_le_allBytes l
  have hfold : readFold (Written.allBytes l).length (breakupTurn ReadDataStream.read)
      ((Written.allBytes l).length + 1) [] ⟨l.flatMap Written.bytes ++ [], 0⟩ =
        .ok (l.foldl (fun records x => records ++ [x.record]) [],
          ⟨[], (Written.allBytes l).length⟩) :=
    Reads.fold l [] _ (by omega)
      (fun front x back heq => reads_breakupTurn
        (h x (heq ▸ List.mem_append_right _ List.mem_cons_self)) _)
      (fun x _ hnil => by simpa [Written.bytes] using congrArg List.length hnil) [] 0
      (Nat.zero_add _)
  have hmap : ∀ acc : List McapRecord, l.foldl (fun records x => records ++ [x.record]) acc =
      acc ++ l.map Written.record := by
    clear hfold hlen h
    induction l with
    | nil => exact fun acc => (List.append_nil acc).symm
    | cons x l ih =>
      intro acc
      rw [List.foldl_cons, ih, List.append_assoc]
      rfl
  rw [List.append_nil, hmap, List.nil_append] at hfold
  unfold breakup
  change (readFold _ _ _ _ ⟨Written.allBytes l, 0⟩).bind _ = _
  rw [show Written.allBytes l = l.flatMap Written.bytes from rfl] at hfold ⊢
  rw [hfold]
  rfl

end Py
end Mcap

import Mcap.TsWriter
import Mcap.TsFiles

/-! # What a file of the TypeScript library is made of

A file is a list of records, and a chunk is one that stands for records of its own (`Item`).  Records
that stand one after the other have places, and a chunk has the message indexes behind it, which is a
group (`groupsOf`).  An index says where a record is, and what it is about: `Group.chunkIndex`,
`attachmentIndexOf` and `metadataIndexOf` are the indexes that records call for.
-/
namespace Mcap
namespace Ts

/-! ## Kinds of records -/

namespace TypedMcapRecord

def message? : TypedMcapRecord → Option Message
  | .message record => some record
  | _ => none

def chunk? : TypedMcapRecord → Option Chunk
  | .chunk record => some record
  | _ => none

def messageIndex? : TypedMcapRecord → Option MessageIndex
  | .messageIndex record => some record
  | _ => none

def attachment? : TypedMcapRecord → Option Attachment
  | .attachment record => some record
  | _ => none

def metadata? : TypedMcapRecord → Option Metadata
  | .metadata record => some record
  | _ => none

/-- Records that may be in a chunk of a writer. -/
def Content : TypedMcapRecord → Prop
  | .schema _ => True
  | .channel _ => True
  | .message _ => True
  | _ => False

/-- Records that are neither chunks nor belong to one. -/
def Plain : TypedMcapRecord → Prop
  | .header _ => True
  | .schema _ => True
  | .channel _ => True
  | .message _ => True
  | .attachment _ => True
  | .metadata _ => True
  | _ => False

section
variable {r : TypedMcapRecord}

theorem Content.plain (h : r.Content) : r.Plain := by
  cases r <;> first | exact trivial | cases h

theorem Plain.chunk? (h : r.Plain) : r.chunk? = none := by
  cases r <;> first | rfl | cases h

theorem Plain.messageIndex? (h : r.Plain) : r.messageIndex? = none := by
  cases r <;> first | rfl | cases h

theorem Content.attachment? (h : r.Content) : r.attachment? = none := by
  cases r <;> first | rfl | cases h

theorem Content.metadata? (h : r.Content) : r.metadata? = none := by
  cases r <;> first | rfl | cases h

end

end TypedMcapRecord

/-! ## Items -/

/-- The bytes of records. -/
def recordBytes (l : List TypedMcapRecord) : Bytes := l.flatMap TypedMcapRecord.bytes

@[simp] theorem recordBytes_nil : recordBytes [] = [] := rfl

@[simp] theorem recordBytes_cons (r : TypedMcapRecord) (l : List TypedMcapRecord) :
    recordBytes (r :: l) = r.bytes ++ recordBytes l := rfl

@[simp] theorem recordBytes_append (l l' : List TypedMcapRecord) :
    recordBytes (l ++ l') = recordBytes l ++ recordBytes l' := List.flatMap_append

/-- A record of a file, and the records in it if it is a chunk. -/
structure Item where
  record : TypedMcapRecord
  inner : List TypedMcapRecord

namespace Item

/-- A record that is no chunk. -/
def plain (record : TypedMcapRecord) : Item := ⟨record, []⟩

/-- The size of a record. -/
def size (i : Item) : Nat := i.record.bytes.length

/-- The bytes of items. -/
def allBytes (l : List Item) : Bytes := recordBytes (l.map Item.record)

@[simp] theorem allBytes_nil : allBytes [] = [] := rfl

@[simp] theorem allBytes_append (l l' : List Item) :
    allBytes (l ++ l') = allBytes l ++ allBytes l' := by
  simp [allBytes]

theorem allBytes_cons (i : Item) (l : List Item) :
    allBytes (i :: l) = i.record.bytes ++ allBytes l := rfl

theorem allBytes_plain (l : List TypedMcapRecord) : allBytes (l.map plain) = recordBytes l := by
  unfold allBytes
  rw [List.map_map]
  exact congrArg recordBytes (List.map_id l)

theorem extent_eq (l : List Item) : extent size l = (allBytes l).length := by
  induction l with
  | nil => rfl
  | cons i l ih =>
    rw [extent_cons, ih, allBytes_cons, List.length_append]
    rfl

end Item

/-! ## Places -/

/-- Where a record of a file is. -/
structure Place where
  offset : Nat
  length : Nat
  item : Item

/-- Records that stand one after the other, from a position on. -/
def placed (pos : Nat) (l : List Item) : List Place :=
  (positions Item.size pos l).map fun p => ⟨p.1, p.2.size, p.2⟩

@[simp] theorem placed_nil (pos : Nat) : placed pos [] = [] := rfl

theorem placed_cons (pos : Nat) (i : Item) (l : List Item) :
    placed pos (i :: l) = ⟨pos, i.size, i⟩ :: placed (pos + i.size) l := rfl

theorem placed_append (pos : Nat) (l l' : List Item) :
    placed pos (l ++ l') = placed pos l ++ placed (pos + (Item.allBytes l).length) l' := by
  unfold placed
  rw [positions_append, List.map_append, Item.extent_eq]

variable {pos : Nat} {l : List Item}

/-- **A place** is that of a record behind others. -/
theorem mem_placed {p : Place} :
    p ∈ placed pos l ↔ ∃ front back, l = front ++ p.item :: back ∧
      p.offset = pos + (Item.allBytes front).length ∧ p.length = p.item.size := by
  unfold placed
  constructor
  · intro h
    obtain ⟨⟨offset, item⟩, hmem, rfl⟩ := List.mem_map.mp h
    obtain ⟨front, back, heq, hoffset⟩ := (mem_positions Item.size).mp hmem
    exact ⟨front, back, heq, by rw [hoffset, Item.extent_eq], rfl⟩
  · rintro ⟨front, back, heq, hoffset, hlength⟩
    refine List.mem_map.mpr ⟨(p.offset, p.item), (mem_positions Item.size).mpr
      ⟨front, back, heq, by rw [hoffset, Item.extent_eq]⟩, ?_⟩
    rw [← hlength]

theorem slice_of_mem_placed {front tail : Bytes} {p : Place} (h : p ∈ placed front.length l) :
    ((front ++ (Item.allBytes l ++ tail)).drop p.offset).take p.length = p.item.record.bytes := by
  obtain ⟨before, after, rfl, hoffset, hlength⟩ := mem_placed.mp h
  rw [hoffset, hlength, Item.allBytes_append, Item.allBytes_cons]
  rw [show front ++ (Item.allBytes before ++ (p.item.record.bytes ++ Item.allBytes after) ++ tail) =
    (front ++ Item.allBytes before) ++ (p.item.record.bytes ++ (Item.allBytes after ++ tail)) by simp]
  rw [List.drop_left' (by rw [List.length_append])]
  exact List.take_left' rfl

/-! ## Indexes -/

/-- The index of an attachment. -/
def attachmentIndexOf (p : Place) : Option AttachmentIndex :=
  p.item.record.attachment?.map fun a =>
    { offset := p.offset
      length := p.length
      logTime := a.logTime
      createTime := a.createTime
      dataSize := a.data.length
      name := a.name
      mediaType := a.mediaType }

/-- The index of a metadata record. -/
def metadataIndexOf (p : Place) : Option MetadataIndex :=
  p.item.record.metadata?.map fun m => { offset := p.offset, length := p.length, name := m.name }

/-- The record of a message index, with its place. -/
structure IndexPlace where
  offset : Nat
  length : Nat
  index : MessageIndex

/-- The records of message indexes that come first. -/
def indexPlaces : List Place → List IndexPlace
  | [] => []
  | p :: rest =>
      match p.item.record.messageIndex? with
      | some index => ⟨p.offset, p.length, index⟩ :: indexPlaces rest
      | none => []

/-- A chunk with the records in it and the message indexes behind it. -/
structure Group where
  offset : Nat
  length : Nat
  chunk : Chunk
  inner : List TypedMcapRecord
  indexes : List IndexPlace

/-- The chunks among some records. -/
def groupsOf : List Place → List Group
  | [] => []
  | p :: rest =>
      match p.item.record.chunk? with
      | some chunk => ⟨p.offset, p.length, chunk, p.item.inner, indexPlaces rest⟩ :: groupsOf rest
      | none => groupsOf rest

/-- The index of a chunk. -/
def Group.chunkIndex (g : Group) : ChunkIndex where
  messageStartTime := g.chunk.messageStartTime
  messageEndTime := g.chunk.messageEndTime
  chunkStartOffset := g.offset
  chunkLength := g.length
  messageIndexOffsets := (∅ : Dict Nat Nat).setAll
    (g.indexes.map fun i => (i.index.channelId, i.offset))
  messageIndexLength := (g.indexes.map IndexPlace.length).sum
  compression := g.chunk.compression
  compressedSize := g.chunk.records.length
  uncompressedSize := g.chunk.uncompressedSize

/-- The entries of the index of a channel. -/
def entriesOf (id : Nat) (l : List Place) : List (Nat × Nat) :=
  l.filterMap fun p => p.item.record.message?.bind fun m =>
    if m.channelId = id then some (m.logTime, p.offset) else none

/-- The places of the records of a chunk, in its data. -/
def innerPlaces (inner : List TypedMcapRecord) : List Place := placed 0 (inner.map Item.plain)

/-- The log times of messages. -/
def logTimes (l : List TypedMcapRecord) : List Nat :=
  (l.filterMap TypedMcapRecord.message?).map Message.logTime

/-- **A chunk of records**, compressed or not. -/
structure Packed (options : McapWriterOptions) (chunk : Chunk) (inner : List TypedMcapRecord) :
    Prop where
  content : ∀ r ∈ inner, r.Content
  data : (chunk.compression, chunk.records) = match options.compressChunk with
    | some compressChunk => compressChunk (recordBytes inner)
    | none => ("", recordBytes inner)
  size : chunk.uncompressedSize = (recordBytes inner).length
  crc : chunk.uncompressedCrc = (crc32 (recordBytes inner)).toNat
  startTime : chunk.messageStartTime = (logTimes inner).min?.getD 0
  endTime : chunk.messageEndTime = (logTimes inner).max?.getD 0
  messages : logTimes inner ≠ []

/-- **A chunk as it should be**: behind it there is one index for each channel with messages, if there
are to be any, with the entries of these messages. -/
structure Group.Sound (options : McapWriterOptions) (g : Group) : Prop where
  packed : Packed options g.chunk g.inner
  nodup : (g.indexes.map fun i => i.index.channelId).Nodup
  entries : ∀ i ∈ g.indexes, i.index.records = entriesOf i.index.channelId (innerPlaces g.inner)
  covered : ∀ id, (∃ i ∈ g.indexes, i.index.channelId = id) ↔
    options.useMessageIndex = true ∧ entriesOf id (innerPlaces g.inner) ≠ []

/-! ## Contents -/

/-- The records that are read for an item. -/
def Item.contents (i : Item) : List TypedMcapRecord :=
  match i.record with
  | .chunk _ => i.inner
  | .messageIndex _ => []
  | record => [record]

/-- What items stand for, without the chunks and their indexes. -/
def contentsOf (l : List Item) : List TypedMcapRecord := l.flatMap Item.contents

@[simp] theorem contentsOf_nil : contentsOf [] = [] := rfl

@[simp] theorem contentsOf_append (l l' : List Item) :
    contentsOf (l ++ l') = contentsOf l ++ contentsOf l' := List.flatMap_append

theorem contentsOf_plain {l : List TypedMcapRecord} (h : ∀ r ∈ l, r.Plain) :
    contentsOf (l.map Item.plain) = l := by
  induction l with
  | nil => rfl
  | cons r l ih =>
    have hr : (Item.plain r).contents = [r] := by
      have := h r List.mem_cons_self
      cases r <;> first | rfl | cases this
    show (Item.plain r).contents ++ contentsOf (l.map Item.plain) = _
    rw [hr, ih fun r' hr' => h r' (List.mem_cons_of_mem _ hr')]
    rfl

/-! ## How they are put together -/

theorem forall_placed {P : Item → Prop} (h : ∀ i ∈ l, P i) :
    ∀ p ∈ placed pos l, P p.item := by
  intro p hp
  obtain ⟨front, back, heq, -, -⟩ := mem_placed.mp hp
  exact h p.item (heq ▸ List.mem_append_right _ List.mem_cons_self)

theorem indexPlaces_append {l m : List Place} (hm : indexPlaces m = []) :
    indexPlaces (l ++ m) = indexPlaces l := by
  induction l with
  | nil => exact hm
  | cons p l ih =>
    rw [List.cons_append, indexPlaces, indexPlaces, ih]

theorem groupsOf_append {l m : List Place} (hm : indexPlaces m = []) :
    groupsOf (l ++ m) = groupsOf l ++ groupsOf m := by
  induction l with
  | nil => rfl
  | cons p l ih =>
    rw [List.cons_append, groupsOf, groupsOf, ih, indexPlaces_append hm]
    cases p.item.record.chunk? with
    | none => rfl
    | some chunk => rfl

theorem groupsOf_eq_nil {l : List Place} (h : ∀ p ∈ l, p.item.record.chunk? = none) :
    groupsOf l = [] := by
  induction l with
  | nil => rfl
  | cons p l ih =>
    rw [groupsOf, h p List.mem_cons_self]
    exact ih fun q hq => h q (List.mem_cons_of_mem _ hq)

theorem indexPlaces_plain (h : ∀ i ∈ l, i.record.Plain) :
    indexPlaces (placed pos l) = [] := by
  cases l with
  | nil => rfl
  | cons i l => rw [placed_cons, indexPlaces, (h i List.mem_cons_self).messageIndex?]

theorem groupsOf_plain (h : ∀ i ∈ l, i.record.Plain) :
    groupsOf (placed pos l) = [] :=
  groupsOf_eq_nil (forall_placed (P := fun i => i.record.chunk? = none) fun i hi => (h i hi).chunk?)

theorem entriesOf_append (id : Nat) (l m : List Place) :
    entriesOf id (l ++ m) = entriesOf id l ++ entriesOf id m := List.filterMap_append

theorem logTimes_append (l m : List TypedMcapRecord) :
    logTimes (l ++ m) = logTimes l ++ logTimes m := by
  unfold logTimes
  rw [List.filterMap_append, List.map_append]

theorem innerPlaces_concat (inner : List TypedMcapRecord) (r : TypedMcapRecord) :
    innerPlaces (inner ++ [r]) =
      innerPlaces inner ++ [⟨(recordBytes inner).length, r.bytes.length, .plain r⟩] := by
  unfold innerPlaces
  rw [List.map_append, placed_append, Item.allBytes_plain, Nat.zero_add]
  rfl

/-! ## Times -/

theorem min?_concat (times : List Nat) (t : Nat) :
    (times ++ [t]).min?.getD 0 =
      if times.length = 0 ∨ t < times.min?.getD 0 then t else times.min?.getD 0 := by
  cases times with
  | nil => rfl
  | cons t' times =>
    rw [List.cons_append, List.min?_cons', List.min?_cons', List.foldl_append]
    show min (times.foldl min t') t = if _ ∨ t < times.foldl min t' then t else times.foldl min t'
    rw [List.length_cons]
    split <;> omega

theorem max?_concat (times : List Nat) (t : Nat) :
    (times ++ [t]).max?.getD 0 =
      if times.length = 0 ∨ times.max?.getD 0 < t then t else times.max?.getD 0 := by
  cases times with
  | nil => rfl
  | cons t' times =>
    rw [List.cons_append, List.max?_cons', List.max?_cons', List.foldl_append]
    show max (times.foldl max t') t = if _ ∨ times.foldl max t' < t then t else times.foldl max t'
    rw [List.length_cons]
    split <;> omega

end Ts
end Mcap

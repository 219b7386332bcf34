import Mcap.McapError

/-! # The layout of a file

A data section is a row of items: records, and chunks that hold records of their
own.  A chunk is written as one record whose body is its header and its compressed
data; `Item.chunk` also carries the records that were compressed.

`locate` names the messages of a chunk by where they are: the offset of the chunk's
data in the file, and the offset of the record in the uncompressed chunk.
-/
namespace Mcap

/-- A record of the data section, or a chunk with the records in it. -/
inductive Item
  | record (opcode : UInt8) (body : Bytes)
  | chunk (header : ChunkHeader) (compressed : Bytes) (records : List (UInt8 × Bytes))
deriving DecidableEq

/-- An item as it is written. -/
def Item.bytes : Item → Bytes
  | record opcode body => frame opcode body
  | chunk header compressed _ => frame op.CHUNK (header.bytes ++ compressed)

/-- A chunk and the offset of its record in the file. -/
structure Placed where
  start : Nat
  header : ChunkHeader
  compressed : Bytes
  records : List (UInt8 × Bytes)
deriving DecidableEq

/-- The chunks of a row of items that begins at the offset `pos`. -/
def placedFrom : Nat → List Item → List Placed
  | _, [] => []
  | pos, .record opcode body :: items =>
      placedFrom (pos + (Item.record opcode body).bytes.length) items
  | pos, .chunk header compressed records :: items =>
      ⟨pos, header, compressed, records⟩ ::
        placedFrom (pos + (Item.chunk header compressed records).bytes.length) items

namespace Placed

/-- The record of the chunk. -/
def bytes (p : Placed) : Bytes := frame op.CHUNK (p.header.bytes ++ p.compressed)

/-- The offset of the compressed data in the file. -/
def dataStart (p : Placed) : Nat := p.start + 9 + p.header.bytes.length

end Placed

@[simp] theorem ChunkHeader.length_bytes (h : ChunkHeader) :
    h.bytes.length = 40 + (utf8 h.compression).length := by
  simp [ChunkHeader.bytes]
  omega

theorem drop_placed {pos : Nat} {items : List Item} {p : Placed} (h : p ∈ placedFrom pos items) :
    pos ≤ p.start ∧ ∃ rest, (items.flatMap Item.bytes).drop (p.start - pos) = p.bytes ++ rest := by
  induction items generalizing pos with
  | nil => cases h
  | cons item items ih =>
    -- the chunk is further on, behind the bytes of this item
    have hlater : p ∈ placedFrom (pos + item.bytes.length) items → pos ≤ p.start ∧
        ∃ rest, ((item :: items).flatMap Item.bytes).drop (p.start - pos) = p.bytes ++ rest := by
      intro h
      obtain ⟨hle, rest, hrest⟩ := ih h
      refine ⟨by omega, rest, ?_⟩
      rw [List.flatMap_cons, List.drop_append, List.drop_eq_nil_of_le (by omega), List.nil_append,
        ← hrest]
      congr 1
      omega
    cases item with
    | record opcode body => exact hlater h
    | chunk header compressed records =>
      rcases List.mem_cons.mp h with rfl | h
      · exact ⟨Nat.le_refl _, items.flatMap Item.bytes, by
          rw [Nat.sub_self, List.drop_zero, List.flatMap_cons]
          rfl⟩
      · exact hlater h

theorem pairwise_placed (pos : Nat) (items : List Item) :
    (placedFrom pos items).Pairwise fun p q => p.start + p.bytes.length ≤ q.start := by
  induction items generalizing pos with
  | nil => exact .nil
  | cons item items ih =>
    cases item with
    | record opcode body => exact ih _
    | chunk header compressed records =>
      exact List.pairwise_cons.mpr ⟨fun q hq => (drop_placed hq).1, ih _⟩

theorem Placed.dataStart_le (p : Placed) : p.dataStart ≤ p.start + p.bytes.length := by
  simp only [Placed.dataStart, Placed.bytes, length_frame, List.length_append]
  omega

/-! ## Messages and where they are -/

/-- A message and where it is: the offset of the chunk's data in the file, and the
offset of the record in the chunk. -/
structure Located where
  dataStart : Nat
  offset : Nat
  header : MessageHeader
  data : Bytes
deriving DecidableEq

/-- The messages among the records of a chunk, which begin at `offset`. -/
def locate (dataStart : Nat) : Nat → List (UInt8 × Bytes) → List Located
  | _, [] => []
  | offset, (opcode, body) :: records =>
      let rest := locate dataStart (offset + 9 + body.length) records
      if opcode = op.MESSAGE then
        match readLeFrom MessageHeader.read body with
        | .ok (header, c) => ⟨dataStart, offset, header, c.rest⟩ :: rest
        | .error _ => rest
      else rest

/-- The messages of a chunk, in file order. -/
def Placed.messages (p : Placed) : List Located := locate p.dataStart 0 p.records

theorem locate_dataStart {ds off : Nat} {records : List (UInt8 × Bytes)} {l : Located}
    (h : l ∈ locate ds off records) : l.dataStart = ds ∧ off ≤ l.offset := by
  induction records generalizing off with
  | nil => cases h
  | cons record records ih =>
    obtain ⟨opcode, body⟩ := record
    have hlater : l ∈ locate ds (off + 9 + body.length) records →
        l.dataStart = ds ∧ off ≤ l.offset := by
      intro h
      obtain ⟨h1, h2⟩ := ih h
      exact ⟨h1, by omega⟩
    simp only [locate] at h
    split at h
    · split at h
      · rcases List.mem_cons.mp h with rfl | h
        · exact ⟨rfl, Nat.le_refl _⟩
        · exact hlater h
      · exact hlater h
    · exact hlater h

theorem pairwise_locate (ds off : Nat) (records : List (UInt8 × Bytes)) :
    (locate ds off records).Pairwise fun a b => a.offset < b.offset := by
  induction records generalizing off with
  | nil => exact .nil
  | cons record records ih =>
    obtain ⟨opcode, body⟩ := record
    simp only [locate]
    split
    · split
      · refine List.pairwise_cons.mpr ⟨fun l hl => ?_, ih _⟩
        have hle := (locate_dataStart hl).2
        show off < l.offset
        omega
      · exact ih _
    · exact ih _

end Mcap

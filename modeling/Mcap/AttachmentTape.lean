import Mcap.ChunkTape

/-! # An attachment from its header to its CRC

On a stream that never fails, an attachment writer is determined by the writer it started
from, the announced length and the data that has been put into it:
`AttachmentWriter.holding`.  Once all of the data is there, `finish` leaves the record of
the attachment behind what the stream held.
-/
namespace Mcap

/-- The record of a finished attachment. -/
def attachmentRecord (o : WriteOptions) (header : AttachmentHeader) (data : Bytes) : Record :=
  .attachment header data
    (if o.calculateAttachmentCrcs then crc32 (header.bytes ++ (le 8 data.length ++ data)) else 0)

/-- The index of an attachment that is written at `pos`. -/
def attachmentIndex (o : WriteOptions) (pos : Nat) (header : AttachmentHeader) (data : Bytes) :
    AttachmentIndex where
  offset := .ofNat pos
  length := .ofNat (attachmentRecord o header data).frame.length
  logTime := header.logTime
  createTime := header.createTime
  dataSize := .ofNat data.length
  name := header.name
  mediaType := header.mediaType

namespace AttachmentWriter

/-- The opcode and the length an attachment starts with. -/
def prelude (header : AttachmentHeader) (length : UInt64) : Bytes :=
  opAndLen op.ATTACHMENT (header.bytes.length + 8 + length.toNat + 4)

/-- What the CRC of an attachment covers. -/
def covered (header : AttachmentHeader) (length : UInt64) (data : Bytes) : Bytes :=
  header.bytes ++ u64 length ++ data

/-- **The attachment writer** over the writer `c` whose tape held `base`, once `data` has
been put into it. -/
def holding (o : WriteOptions) (c : CountingCrcWriter Stream) (base : Bytes)
    (header : AttachmentHeader) (length : UInt64) (data : Bytes) :
    AttachmentWriter (CountingCrcWriter Stream) where
  recordOffset := base.length
  attachmentOffset := (covered header length []).length
  attachmentLength := length
  header
  writer :=
    { inner := c.push base (prelude header length ++ covered header length data)
      hasher := if o.calculateAttachmentCrcs then some ⟨covered header length data⟩ else none
      count := (covered header length data).length }

variable {o : WriteOptions} {c : CountingCrcWriter Stream} {base : Bytes}
  {header : AttachmentHeader} {length : UInt64} {data : Bytes}

theorem writeAll_nested (crcs : Bool) (done b : Bytes) :
    writeAll ({ inner := c.push base (prelude header length ++ done)
                hasher := if crcs then some ⟨done⟩ else none
                count := done.length } : CountingCrcWriter (CountingCrcWriter Stream)) b =
      .ok { inner := c.push base (prelude header length ++ (done ++ b))
            hasher := if crcs then some ⟨done ++ b⟩ else none
            count := (done ++ b).length } := by
  rw [CountingCrcWriter.writeAll_ok ((CountingCrcWriter.onTape_push ..).writeAll b),
    CountingCrcWriter.push_push, CountingCrcWriter.account, List.append_assoc]
  cases crcs <;> simp [Hasher.update]

/-- **A new attachment holds nothing.** -/
theorem new_holding (hc : c.OnTape base) (header : AttachmentHeader) (length : UInt64) :
    new c length header o.calculateAttachmentCrcs = .ok (holding o c base header length []) := by
  have hstart : CountingCrcWriter.new (c.push base (prelude header length))
      o.calculateAttachmentCrcs = ⟨c.push base (prelude header length ++ []),
        if o.calculateAttachmentCrcs then some ⟨[]⟩ else none, ([] : Bytes).length⟩ := by
    rw [List.append_nil]
    rfl
  unfold new
  rw [position_of_streamPosition hc.streamPosition]
  simp only [dropWriter, Res.ok_bind]
  rw [write_of_writeAll (hc.writeAll _)]
  simp only [Res.ok_bind]
  rw [← prelude, hstart, write_of_writeAll (writeAll_nested ..)]
  simp only [Res.ok_bind]
  rw [write_of_writeAll (writeAll_nested ..)]
  simp only [Res.ok_bind, Res.pure_eq, List.nil_append, CountingCrcWriter.position]
  rw [holding, covered, List.append_nil]

theorem current_holding : (holding o c base header length data).writer.position -
    (holding o c base header length data).attachmentOffset = data.length := by
  simp only [holding, CountingCrcWriter.position, covered, List.length_append, List.append_nil]
  omega

theorem space_holding : (holding o c base header length data).attachmentLength.toNat -
    ((holding o c base header length data).writer.position -
      (holding o c base header length data).attachmentOffset) = length.toNat - data.length := by
  rw [current_holding]
  rfl

/-- **Bytes that fit are put behind the data.** -/
theorem putBytes_holding {bytes : Bytes} (hfit : data.length + bytes.length ≤ length.toNat) :
    (holding o c base header length data).putBytes bytes =
      .ok (holding o c base header length (data ++ bytes)) := by
  have hcov : covered header length data ++ bytes = covered header length (data ++ bytes) := by
    simp [covered, List.append_assoc]
  have hw : writeAll (holding o c base header length data).writer bytes =
      .ok (holding o c base header length (data ++ bytes)).writer := by
    rw [holding, holding, ← hcov]
    exact writeAll_nested ..
  unfold putBytes
  simp only [space_holding]
  rw [if_neg (by omega), write_of_writeAll hw]
  rfl

theorem putBytes_tooLarge {bytes : Bytes} (hle : data.length ≤ length.toNat)
    (hfit : length.toNat < data.length + bytes.length) :
    (holding o c base header length data).putBytes bytes =
      .err (.attachmentTooLarge (bytes.length - (length.toNat - data.length)) length.toNat,
        holding o c base header length data) := by
  unfold putBytes
  simp only [space_holding]
  rw [if_pos (by omega)]
  rfl

/-- **A complete attachment is a record.** -/
theorem finish_holding (h : length.toNat = data.length) :
    (holding o c base header length data).finish =
      .ok (c.push base (attachmentRecord o header data).frame,
        attachmentIndex o base.length header data) := by
  have hlen : length = .ofNat data.length := by rw [← h, UInt64.ofNat_toNat]
  have hu : u64 length = le 8 data.length := by rw [u64, h]
  have hcrc : (holding o c base header length data).writer.currentChecksum =
      if o.calculateAttachmentCrcs then crc32 (header.bytes ++ (le 8 data.length ++ data)) else 0 := by
    simp only [holding, CountingCrcWriter.currentChecksum, covered, hu, List.append_assoc]
    cases o.calculateAttachmentCrcs <;> rfl
  have hframe : prelude header length ++ covered header length data ++
      u32 (holding o c base header length data).writer.currentChecksum =
        (attachmentRecord o header data).frame := by
    rw [hcrc]
    simp only [prelude, covered, hu, h, attachmentRecord, Record.frame, Record.opcode, Record.body,
      frame_eq, List.length_append, length_le, length_u32, List.append_assoc]
    congr 2
    omega
  have hpos := (CountingCrcWriter.onTape_push c base
    (attachmentRecord o header data).frame).streamPosition
  unfold finish
  simp only [current_holding]
  rw [if_neg (not_not_intro (show (holding o c base header length data).attachmentLength.toNat = _
    from h)), write_of_writeAll (show writeAll (holding o c base header length data).writer.inner _ = _ from
    (CountingCrcWriter.onTape_push ..).writeAll _), CountingCrcWriter.push_push, hframe]
  simp only [dropWriter, Res.ok_bind]
  rw [position_of_streamPosition hpos]
  simp only [Res.ok_bind, Res.pure_eq]
  rw [List.length_append, show (holding o c base header length data).recordOffset = base.length
    from rfl, Nat.add_sub_cancel_left, attachmentIndex, ← hlen]
  rfl

theorem finish_incomplete (h : length.toNat ≠ data.length) :
    (holding o c base header length data).finish =
      .err (.attachmentIncomplete data.length length.toNat) := by
  unfold finish
  simp only [current_holding]
  exact if_pos h

end AttachmentWriter
end Mcap

import Mcap.JournalRuns

/-! # Attachments in one piece

`attach` on a writer without an open chunk, step by step: the attachment is in the slot while its
data is put (`attaching`), and its record is at the end of the stream afterwards (`attach_raw`).
-/
namespace Mcap
namespace Writer
variable {σ : Type} [Encoders σ] {w w' : Writer σ Stream} {es : List Entry}
  {c : CountingCrcWriter Stream} {header : AttachmentHeader} {length : UInt64} {data base : Bytes}
  {a : Attachment}

theorem finishChunk_raw (h : Shows w ⟨es, .raw⟩) : finishChunk w = (.ok (), w) := by
  obtain ⟨c, hc, -⟩ := h.raw
  rw [finishChunk, Exec.bind_ok (assertNotFinished_run h.notFinished),
    Exec.bind_ok (Exec.get_run w)]
  simp only [hc]
  rfl

/-- The writer with an attachment in progress that holds `data`. -/
def attaching (w : Writer σ Stream) (c : CountingCrcWriter Stream) (base : Bytes)
    (header : AttachmentHeader) (length : UInt64) (data : Bytes) : Writer σ Stream :=
  { w with writer := some (.attachment (.holding w.options c base header length data)) }

omit [Encoders σ] in
theorem putAttachmentBytes_attaching {piece : Bytes}
    (hfit : data.length + piece.length ≤ length.toNat) :
    putAttachmentBytes piece (w.attaching c base header length data) =
      (.ok (), w.attaching c base header length (data ++ piece)) := by
  simp only [putAttachmentBytes, attaching, AttachmentWriter.putBytes_holding hfit]

theorem holds_of_shows (h : Shows w ⟨es, .raw⟩) (hc : w.writer = some (.raw c)) :
    c.Holds w.options es := by
  obtain ⟨c', hc', hholds⟩ := h.raw
  rw [hc] at hc'
  cases hc'
  exact hholds

theorem startAttachment_raw (h : Shows w ⟨es, .raw⟩) (hc : w.writer = some (.raw c)) :
    startAttachment length header w =
      (.ok (), w.attaching c (dataBytes w.options es) header length []) := by
  rw [startAttachment, Exec.bind_ok (finishChunk_raw h), Exec.bind_ok (Exec.get_run w)]
  simp only [hc, AttachmentWriter.new_holding (holds_of_shows h hc).onTape]
  rfl

/-- The writer with the attachment behind what has been written. -/
def attached (w : Writer σ Stream) (c : CountingCrcWriter Stream) (base : Bytes) (a : Attachment) :
    Writer σ Stream :=
  { w with
    attachmentCount := w.attachmentCount + 1
    attachmentIndexes :=
      if w.options.emitAttachmentIndexes then
        w.attachmentIndexes ++ [attachmentIndex w.options base.length (attachmentHeader a) a.data]
      else w.attachmentIndexes
    writer := some (.raw
      (c.push base (attachmentRecord w.options (attachmentHeader a) a.data).frame)) }

/-- **What `attach` does** when no chunk is open: the record is at the end of the stream. -/
theorem attach_raw (h : Shows w ⟨es, .raw⟩) (hc : w.writer = some (.raw c))
    (hlen : a.data.length < 2 ^ 64) :
    attach a w = (.ok (), w.attached c (dataBytes w.options es) a) ∧
      Shows (w.attached c (dataBytes w.options es) a)
        ⟨es ++ [.record (attachmentRecord w.options (attachmentHeader a) a.data)], .raw⟩ := by
  have htoNat : (UInt64.ofNat a.data.length).toNat = a.data.length := UInt64.toNat_ofNat_of_lt' hlen
  have hholds := holds_of_shows h hc
  constructor
  · rw [attach, Exec.bind_ok (startAttachment_raw h hc),
      Exec.bind_ok (putAttachmentBytes_attaching (by rw [htoNat, List.length_nil, Nat.zero_add])),
      List.nil_append]
    simp only [finishAttachment, attaching, AttachmentWriter.finish_holding htoNat]
    rfl
  · have hshows : Shows (w.attaching c (dataBytes w.options es) (attachmentHeader a)
        (.ofNat a.data.length) a.data) ⟨es, .attachment (attachmentHeader a)
          (.ofNat a.data.length) a.data⟩ :=
      ⟨h.notFinished, .attachment hholds (Nat.le_of_eq htoNat.symm), h.packed,
        h.booked.of_fields rfl rfl rfl rfl rfl rfl⟩
    have hattached := attached_shows hshows hholds
    exact hattached

theorem attach_run (hrun : attach a w = (.ok (), w')) : (Op.attach a).run w = (.ok .done, w') := by
  show Reply.ofUnit (attach a) w = _
  rw [Reply.ofUnit, Exec.bind_ok hrun]
  rfl

end Writer
end Mcap

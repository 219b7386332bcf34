import Mcap.SinkEnds
import Mcap.SliceReads
import Mcap.SummaryRoundTrip

/-! # Attachments in pieces

An attachment is announced, its data is put piece by piece, and it is finished.  A piece that does
not fit any more is refused, and the attachment goes on without it.

`putOffered_holding` is what a list of pieces leaves in the slot, by induction on the pieces.  So
`attachOffered_attach`: the pieces that fit are the attachment, as `attach` writes it in one piece.
`attach_eq_ok` is what `attach` leaves behind, and nothing that is written later changes it: the
index in the summary leads `read::attachment` to the record.
-/
namespace Mcap

namespace Writer
variable {σ W : Type} [Encoders σ] [Write W] [Seek W]

/-- `put_attachment_bytes` for each of the pieces. -/
def putEach : List Bytes → Exec (Writer σ W) McapError Unit
  | [] => pure ()
  | piece :: pieces => do
      putAttachmentBytes piece
      putEach pieces

/-- `put_attachment_bytes` by a caller that goes on without a piece that is too large. -/
def offer (piece : Bytes) : Exec (Writer σ W) McapError Unit := fun w =>
  match putAttachmentBytes piece w with
  | (.err (.attachmentTooLarge _ _), w) => (.ok (), w)
  | r => r

/-- Each of the pieces is offered. -/
def offerEach : List Bytes → Exec (Writer σ W) McapError Unit
  | [] => pure ()
  | piece :: pieces => do
      offer piece
      offerEach pieces

/-- `start_attachment` with the whole length, `put` and `finish_attachment`. -/
def attachBy (put : Exec (Writer σ W) McapError Unit) (header : AttachmentHeader)
    (length : UInt64) : Exec (Writer σ W) McapError Unit := do
  startAttachment length header
  put
  finishAttachment

/-- An attachment in pieces. -/
def attachPieces (pieces : List Bytes) : AttachmentHeader → UInt64 →
    Exec (Writer σ W) McapError Unit := attachBy (putEach pieces)

/-- An attachment in pieces, some of which may be too large. -/
def attachOffered (pieces : List Bytes) : AttachmentHeader → UInt64 →
    Exec (Writer σ W) McapError Unit := attachBy (offerEach pieces)

end Writer

/-- The pieces that fit, one after the other, into `space` bytes. -/
def accepted (space : Nat) : List Bytes → List Bytes
  | [] => []
  | piece :: pieces =>
      if piece.length ≤ space then piece :: accepted (space - piece.length) pieces
      else accepted space pieces

/-- What has been put into the attachment so far. -/
def AttachmentWriter.put {W : Type} (a : AttachmentWriter W) : Nat :=
  a.writer.position - a.attachmentOffset

namespace Writer
section
variable {σ : Type} [Encoders σ] {w w' : Writer σ Stream} {j : Journal} {es : List Entry}
  {c : CountingCrcWriter Stream} {header : AttachmentHeader} {length : UInt64} {data : Bytes}
  {base : Bytes} {o : WriteOptions} {pieces : List Bytes}

/-! ## Pieces -/

omit [Encoders σ] in
theorem putAttachmentBytes_tooLarge {piece : Bytes} (hle : data.length ≤ length.toNat)
    (hfit : length.toNat < data.length + piece.length) :
    putAttachmentBytes piece (w.attaching c base header length data) =
      (.err (.attachmentTooLarge (piece.length - (length.toNat - data.length)) length.toNat),
        w.attaching c base header length data) := by
  simp only [putAttachmentBytes, attaching, AttachmentWriter.putBytes_tooLarge hle hfit]

omit [Encoders σ] in
/-- **Pieces that fit are put behind the data.** -/
theorem putEach_attaching (hfit : data.length + pieces.flatten.length ≤ length.toNat) :
    putEach pieces (w.attaching c base header length data) =
      (.ok (), w.attaching c base header length (data ++ pieces.flatten)) := by
  induction pieces generalizing data with
  | nil =>
    rw [List.flatten_nil, List.append_nil]
    rfl
  | cons piece pieces ih =>
    rw [List.flatten_cons, List.length_append] at hfit
    rw [putEach, Exec.bind_ok (putAttachmentBytes_attaching (by omega)),
      ih (by rw [List.length_append]; omega), List.flatten_cons, List.append_assoc]

omit [Encoders σ] in
/-- **Of the pieces that are offered, those that fit are put behind the data.** -/
theorem offerEach_attaching (hle : data.length ≤ length.toNat) :
    offerEach pieces (w.attaching c base header length data) =
      (.ok (), w.attaching c base header length
        (data ++ (accepted (length.toNat - data.length) pieces).flatten)) := by
  induction pieces generalizing data with
  | nil =>
    rw [accepted, List.flatten_nil, List.append_nil]
    rfl
  | cons piece pieces ih =>
    rw [offerEach]
    by_cases hfit : piece.length ≤ length.toNat - data.length
    · have hput : offer piece (w.attaching c base header length data) =
          (.ok (), w.attaching c base header length (data ++ piece)) := by
        rw [offer, putAttachmentBytes_attaching (by omega)]
      rw [Exec.bind_ok hput, ih (by rw [List.length_append]; omega), accepted, if_pos hfit,
        List.flatten_cons, List.append_assoc, List.length_append, Nat.sub_add_eq]
    · have hput : offer piece (w.attaching c base header length data) =
          (.ok (), w.attaching c base header length data) := by
        rw [offer, putAttachmentBytes_tooLarge hle (by omega)]
      rw [Exec.bind_ok hput, ih hle, accepted, if_neg hfit]

/-! ## A single attach -/

theorem finishChunk_eq_ok (h : Shows w j) (hrun : finishChunk w = (.ok (), w')) :
    ∃ es, Extended w j [] w' ⟨es, .raw⟩ := by
  rcases j.open_attachment_lost with ho | ⟨header, length, data, htail⟩ | hlost
  · have hclosed := finishChunk_shows h ho
    rw [hrun] at hclosed
    obtain ⟨⟨es, tail⟩, hext, rfl⟩ := hclosed
    exact ⟨es, hext⟩
  · obtain ⟨es, tail⟩ := j
    subst htail
    rw [finishChunk_refused h] at hrun
    cases hrun
  · rw [finishChunk_panic (h.not_usable hlost)] at hrun
    cases hrun

theorem startAttachment_eq_ok (h : Shows w j) (hrun : startAttachment length header w = (.ok (), w')) :
    ∃ w₀ es, finishChunk w = (.ok (), w₀) ∧ Extended w j [] w₀ ⟨es, .raw⟩ ∧
      startAttachment length header w = startAttachment length header w₀ := by
  obtain ⟨⟨⟩, w₀, hfinish, -⟩ := Exec.bind_eq_ok.mp hrun
  obtain ⟨es, hext⟩ := finishChunk_eq_ok h hfinish
  refine ⟨w₀, es, hfinish, hext, ?_⟩
  rw [startAttachment, Exec.bind_ok hfinish, Exec.bind_ok (finishChunk_raw hext.shows_)]

theorem attachBy_congr (h : Shows w j) {put put' : Exec (Writer σ Stream) McapError Unit}
    (hput : ∀ (w₀ : Writer σ Stream) c base, put (w₀.attaching c base header length []) =
      put' (w₀.attaching c base header length [])) :
    attachBy put header length w = attachBy put' header length w := by
  rw [attachBy, attachBy, Exec.bind_run, Exec.bind_run]
  rcases hrun : startAttachment length header w with ⟨⟨⟩ | e | _, w'⟩
  · obtain ⟨w₀, es, -, hext, hsame⟩ := startAttachment_eq_ok h hrun
    obtain ⟨c, hc, -⟩ := hext.shows_.raw
    rw [hrun, startAttachment_raw hext.shows_ hc] at hsame
    cases hsame
    show (put >>= fun _ => finishAttachment) _ = (put' >>= fun _ => finishAttachment) _
    rw [Exec.bind_run, Exec.bind_run, hput]
  · rfl
  · rfl

variable {a : Attachment}

/-- **The pieces of the data are the attachment.** -/
theorem attachPieces_attach (h : Shows w j) (hlen : a.data.length < 2 ^ 64)
    (hpieces : pieces.flatten = a.data) :
    attachPieces pieces (attachmentHeader a) (.ofNat a.data.length) w = attach a w := by
  have htoNat : (UInt64.ofNat a.data.length).toNat = a.data.length := UInt64.toNat_ofNat_of_lt' hlen
  refine attachBy_congr h fun w₀ c base => ?_
  rw [putEach_attaching (by rw [hpieces, htoNat, List.length_nil, Nat.zero_add]),
    putAttachmentBytes_attaching (by rw [htoNat, List.length_nil, Nat.zero_add]), hpieces]

/-- **The pieces that fit are the attachment**, whatever else has been offered. -/
theorem attachOffered_attach (h : Shows w j) (hlen : a.data.length < 2 ^ 64)
    (hpieces : (accepted a.data.length pieces).flatten = a.data) :
    attachOffered pieces (attachmentHeader a) (.ofNat a.data.length) w = attach a w := by
  have htoNat : (UInt64.ofNat a.data.length).toNat = a.data.length := UInt64.toNat_ofNat_of_lt' hlen
  refine attachBy_congr h fun w₀ c base => ?_
  rw [offerEach_attaching (Nat.zero_le _),
    putAttachmentBytes_attaching (by rw [htoNat, List.length_nil, Nat.zero_add]), htoNat,
    List.length_nil, Nat.sub_zero, hpieces]

/-- **A piece that is too large is refused**, and the writer is what it was. -/
theorem putAttachmentBytes_refused (h : Shows w j) {writer : AttachmentWriter (CountingCrcWriter Stream)}
    (hslot : w.writer = some (.attachment writer)) {piece : Bytes}
    (hlarge : writer.attachmentLength.toNat < writer.put + piece.length) :
    putAttachmentBytes piece w =
      (.err (.attachmentTooLarge (writer.put + piece.length - writer.attachmentLength.toNat)
        writer.attachmentLength.toNat), w) := by
  obtain ⟨es, tail⟩ := j
  have hm := h.mode
  rw [hslot] at hm
  generalize w.dropped = dropped at hm
  cases hm with
  | @attachment _ header length data c _ hholds hle =>
    have hput : (AttachmentWriter.holding w.options c (dataBytes w.options es) header length data).put =
        data.length := AttachmentWriter.current_holding
    have hsame : w.attaching c (dataBytes w.options es) header length data = w := by
      rw [attaching, ← hslot]
    rw [hput] at hlarge ⊢
    have hrefused : putAttachmentBytes piece
        (w.attaching c (dataBytes w.options es) header length data) = _ :=
      putAttachmentBytes_tooLarge hle hlarge
    rw [hsame] at hrefused
    rw [hrefused]
    show _ = (Res.err (McapError.attachmentTooLarge (data.length + piece.length - length.toNat) _), w)
    rw [show piece.length - (length.toNat - data.length) =
      data.length + piece.length - length.toNat by omega]
    rfl

/-- **What `attach` leaves behind**: the record at the end of the stream, and its index. -/
theorem attach_eq_ok (h : Shows w j) (hlen : a.data.length < 2 ^ 64)
    (hrun : attach a w = (.ok (), w')) :
    ∃ front, w'.Live (front ++ (attachmentRecord w.options (attachmentHeader a) a.data).frame)
      (if w.options.emitAttachmentIndexes then w.attachmentIndexes ++
        [attachmentIndex w.options front.length (attachmentHeader a) a.data]
      else w.attachmentIndexes) w.options := by
  obtain ⟨⟨⟩, w₁, hstart, -⟩ := Exec.bind_eq_ok.mp hrun
  obtain ⟨w₀, es, -, hext, hsame⟩ := startAttachment_eq_ok h hstart
  obtain ⟨c, hc, -⟩ := hext.shows_.raw
  have hattach : attach a w = attach a w₀ := by
    rw [attach, Exec.bind_run, Exec.bind_run, hsame]
  rw [hattach, (attach_raw hext.shows_ hc hlen).1] at hrun
  cases hrun
  have hopts : w₀.options = w.options := options_of_core hext.core
  have hindexes : w₀.core.attachmentIndexes = w.core.attachmentIndexes :=
    congrArg Writer.attachmentIndexes hext.core
  rw [← hopts]
  refine ⟨dataBytes w₀.options es, ?_, hext.shows_.notFinished, rfl, ?_⟩
  · rintro mode ⟨⟩
    exact ⟨List.prefix_rfl, rfl⟩
  · show _ <+: (if w₀.options.emitAttachmentIndexes then w₀.core.attachmentIndexes ++ _ else
      w₀.core.attachmentIndexes)
    rw [hindexes]
    exact List.prefix_rfl

/-! ## Reading it back -/

theorem live_runAll {K : Record → Prop} {front : Bytes} {indexes : List AttachmentIndex}
    (h : Recorded K o w j) (hlive : w.Live front indexes o) {ops : List Op}
    (hK : ∀ op ∈ ops, op.Keeps K o) (hr : ∀ r ∈ (Op.runAll ops w).1, Returned r) :
    (∃ j', Recorded K o (Op.runAll ops w).2 j') ∧ (Op.runAll ops w).2.Live front indexes o := by
  induction ops generalizing w j with
  | nil => exact ⟨⟨j, h⟩, hlive⟩
  | cons op ops ih =>
    rcases hop : op.run w with ⟨r, w'⟩
    by_cases hpanic : r = .panic
    · subst hpanic
      rw [Op.runAll, hop] at hr
      exact absurd rfl (hr .panic List.mem_cons_self).1
    · rw [Op.runAll_cons hop hpanic] at hr ⊢
      have hkeeps := hK op List.mem_cons_self
      obtain ⟨j', hj'⟩ := h.call hkeeps hop (hr r List.mem_cons_self)
      have hlive' := slotted_live.run op h.sound hlive
      rw [hop] at hlive'
      exact ih hj' hlive' (fun op' hop' => hK op' (List.mem_cons_of_mem _ hop'))
        fun r' hr' => hr r' (List.mem_cons_of_mem _ hr')

/-- **A writer that is finished has the record in its file, and the index in its summary.** -/
theorem Live.finished {K : Record → Prop} {front : Bytes} {indexes : List AttachmentIndex}
    {order : HashOrder} {summary : Summary} (h : Recorded K o w j)
    (hlive : w.Live front indexes o) (hfin : finish order w = (.ok summary, w')) :
    ∃ file, w'.Produced file ∧ front <+: file ∧ indexes <+: summary.attachmentIndexes := by
  obtain ⟨w₁, es, schemas, channels, hclosed, hrec, -, -, -, -, rfl, hfile⟩ := h.finish hfin
  have hlive₁ := live_finishChunk w hlive
  rw [hclosed] at hlive₁
  obtain ⟨c, hc, hholds⟩ := hrec.shows_.raw
  have hfront : front <+: dataBytes o es := by
    have hstarts := (hlive₁.atEnd _ hc).starts
    rwa [hholds.onTape, hrec.options] at hstarts
  refine ⟨_, hfile, hfront.trans ?_, hlive₁.indexed⟩
  rw [fileBytes, List.append_assoc, List.append_assoc, List.append_assoc]
  exact List.prefix_append ..

variable {δ : Type} {D : Decompressor δ}

/-- **The index in the summary leads to the attachment.** -/
theorem attached_read {P : Writer σ Stream → Op → Res McapError Reply → Prop}
    {calls : List (Op × Res McapError Reply)} {w₁ : Writer σ Stream} {ops : List Op}
    {order : HashOrder} {summary : Summary} (h : Session P o calls w) (hlen : a.data.length < 2 ^ 64)
    (hrun : attach a w = (.ok (), w₁)) (hr : ∀ r ∈ (Op.runAll ops w₁).1, Returned r)
    (hfin : finish order (Op.runAll ops w₁).2 = (.ok summary, w'))
    (hemit : o.emitAttachmentIndexes = true) (hname : StringFits a.name)
    (hmediaType : StringFits a.mediaType) :
    ∃ file index, w'.Produced file ∧
      summary.attachmentIndexes[w.attachmentIndexes.length]? = some index ∧
      (file.length ≤ ISIZE_MAX →
        Eventually (fun fuel => attachment D fuel file index) (.ok a)) := by
  obtain ⟨j, hj⟩ := h.recorded (K := fun _ => True) trivial fun _ op _ _ => op.keeps_true o
  obtain ⟨front, hlive⟩ := attach_eq_ok hj.shows_ hlen hrun
  obtain ⟨j₁, hj₁⟩ := hj.call ((Op.attach a).keeps_true o) (attach_run hrun) (returned_of_ok rfl)
  rw [hj.options, if_pos hemit] at hlive
  obtain ⟨⟨j₂, hj₂⟩, hlive₂⟩ := live_runAll hj₁ hlive (fun op _ => op.keeps_true o) hr
  obtain ⟨file, hfile, ⟨post, rfl⟩, hindexes⟩ := hlive₂.finished hj₂ hfin
  refine ⟨_, attachmentIndex o front.length (attachmentHeader a) a.data, hfile, ?_,
    fun hmem => ?_⟩
  · obtain ⟨rest, hrest⟩ := hindexes
    rw [← hrest, List.append_assoc, List.getElem?_append_right Nat.le.refl, Nat.sub_self]
    rfl
  · have hplain : (attachmentRecord o (attachmentHeader a) a.data).Plain := by
      simp [Record.Plain, attachmentRecord, Record.opcode]
      decide
    refine readIndexed_of_file hplain ⟨hname, hmediaType, hlen, ?_⟩ ?_ rfl
    · cases o.calculateAttachmentCrcs
      · exact .inl rfl
      · exact .inr rfl
    · exact Nat.lt_of_le_of_lt hmem (by decide)

end

/-- **Attachments in pieces**: in every session, the pieces of an attachment leave what `attach`
leaves, also among pieces that are too large; such a piece is refused and changes nothing; and the
index in the summary leads to the attachment. -/
theorem attachment_in_pieces {σ : Type} [Encoders σ] {δ : Type} (D : Decompressor δ)
    {P : Writer σ Stream → Op → Res McapError Reply → Prop} {o : WriteOptions}
    {calls : List (Op × Res McapError Reply)} {w : Writer σ Stream} (h : Session P o calls w) :
    (∀ (a : Attachment) pieces, a.data.length < 2 ^ 64 → pieces.flatten = a.data →
      attachPieces pieces (attachmentHeader a) (.ofNat a.data.length) w = attach a w) ∧
    (∀ (a : Attachment) pieces, a.data.length < 2 ^ 64 →
      (accepted a.data.length pieces).flatten = a.data →
      attachOffered pieces (attachmentHeader a) (.ofNat a.data.length) w = attach a w) ∧
    (∀ writer piece, w.writer = some (.attachment writer) →
      writer.attachmentLength.toNat < writer.put + piece.length →
      putAttachmentBytes piece w =
        (.err (.attachmentTooLarge (writer.put + piece.length - writer.attachmentLength.toNat)
          writer.attachmentLength.toNat), w)) ∧
    ∀ (a : Attachment) pieces w₁ ops order summary w', a.data.length < 2 ^ 64 →
      pieces.flatten = a.data → o.emitAttachmentIndexes = true → StringFits a.name →
      StringFits a.mediaType →
      attachPieces pieces (attachmentHeader a) (.ofNat a.data.length) w = (.ok (), w₁) →
      (∀ r ∈ (Op.runAll ops w₁).1, Returned r) →
      finish order (Op.runAll ops w₁).2 = (.ok summary, w') →
      ∃ file index, w'.Produced file ∧
        summary.attachmentIndexes[w.attachmentIndexes.length]? = some index ∧
        (file.length ≤ ISIZE_MAX →
          Eventually (fun fuel => attachment D fuel file index) (.ok a)) := by
  obtain ⟨j, hj⟩ := h.recorded (K := fun _ => True) trivial fun _ op _ _ => op.keeps_true o
  refine ⟨fun a pieces hlen hpieces => attachPieces_attach hj.shows_ hlen hpieces,
    fun a pieces hlen hpieces => attachOffered_attach hj.shows_ hlen hpieces,
    fun writer piece hslot hlarge => putAttachmentBytes_refused hj.shows_ hslot hlarge, ?_⟩
  intro a pieces w₁ ops order summary w' hlen hpieces hemit hname hmediaType hrun hr hfin
  rw [attachPieces_attach hj.shows_ hlen hpieces] at hrun
  exact attached_read h hlen hrun hr hfin hemit hname hmediaType

/-- An attachment of three bytes is put in two pieces into a new writer, and read back. -/
theorem attachment_in_pieces_put : ∃ (w w₁ w' : Writer Empty Stream) (summary : Summary) (file : Bytes)
    (index : AttachmentIndex),
    attachPieces [[1, 2], [3]] ⟨7, 8, "log", "text/plain"⟩ 3 w = (.ok (), w₁) ∧
      finish .byId w₁ = (.ok summary, w') ∧ w'.Produced file ∧ summary.attachmentIndexes = [index] ∧
      Eventually (fun fuel => attachment storedLz4 fuel file index)
        (.ok ⟨7, 8, "log", "text/plain", [1, 2, 3]⟩) := by
  have hrun : ∃ (w w₁ w' : Writer Empty Stream) (summary : Summary),
      Session (fun _ _ _ => True) fullOptions [] w ∧
      attachPieces [[1, 2], [3]] ⟨7, 8, "log", "text/plain"⟩ 3 w = (.ok (), w₁) ∧
      finish .byId w₁ = (.ok summary, w') ∧ summary.attachmentIndexes.length = 1 ∧
      w.attachmentIndexes = [] ∧ ∃ bytes, w'.bytes = some bytes ∧ bytes.length ≤ ISIZE_MAX :=
    ⟨_, _, _, _, .start rfl, rfl, rfl, rfl, rfl, _, rfl, by decide +kernel⟩
  obtain ⟨w, w₁, w', summary, hsession, hput, hfin, hone, hnone, bytes, hbytes, hlen⟩ := hrun
  obtain ⟨file, index, hfile, hindex, hread⟩ := (attachment_in_pieces storedLz4 hsession).2.2.2
    ⟨7, 8, "log", "text/plain", [1, 2, 3]⟩ [[1, 2], [3]] w₁ [] .byId summary w' (by decide) rfl rfl
    (by decide) (by decide) hput (fun _ hmem => by cases hmem) hfin
  have hsame : file = bytes := Option.some.inj (hfile.bytes_eq.symm.trans hbytes)
  obtain ⟨i, hi⟩ := List.length_eq_one_iff.mp hone
  rw [hnone, hi] at hindex
  obtain rfl : i = index := Option.some.inj hindex
  exact ⟨w, w₁, w', summary, file, i, hput, hfin, hfile, hi, hread (hsame ▸ hlen)⟩

/-! ## Names that are too long -/

end Writer

section
variable {δ : Type} {D : Decompressor δ}

theorem InnerReader.parsed_of_next {fuel : Nat} {s s' : InnerReader δ} {r : Record}
    (h : s.next D fuel = .item (.ok r) s') : ∃ opcode data, parseRecord opcode data = .ok r := by
  induction fuel generalizing s with
  | zero => cases h
  | succ fuel ih =>
    rw [InnerReader.next] at h
    generalize s.reader.nextEvent D (fuel + 1) = outcome at h
    unfold InnerReader.react at h
    split at h
    · simp only at h
      split at h
      · cases h
      · exact ih h
    · rename_i opcode data
      refine ⟨opcode, data, ?_⟩
      unfold parsedItem at h
      split at h
      · rename_i hp
        cases h
        exact hp
      · cases h
      · cases h
    all_goals cases h

theorem gives_attachmentHeader : Gives AttachmentHeader.read fun h => StringFits h.name :=
  (Gives.any _).bind fun _ _ => (Gives.any _).bind fun _ _ => gives_string.bind fun _ h =>
    (Gives.any _).bind fun _ _ => Gives.pure h

theorem fits_of_parsed_attachment {opcode : UInt8} {data data' : Bytes} {header : AttachmentHeader}
    {crc : UInt32} (hp : parseRecord opcode data = .ok (.attachment header data' crc)) :
    StringFits header.name := by
  obtain rfl : op.ATTACHMENT = opcode := parse_opcode hp
  have h : parseAttachment data = .ok (.attachment header data' crc) := hp
  unfold parseAttachment at h
  rcases hread : readLeFrom AttachmentHeader.read data with e | ⟨header', c⟩ <;> simp only [hread] at h
  · cases h
  · have hfits := gives_attachmentHeader.readLeFrom hread
    repeat' split at h
    all_goals cases h
    exact hfits

theorem fits_of_attachment {fuel : Nat} {mcap : Bytes} {index : AttachmentIndex} {a : Attachment}
    (h : attachment D fuel mcap index = some (.ok a)) : StringFits a.name := by
  unfold attachment readIndexed at h
  split at h
  case h_2 | h_3 => cases h
  unfold onlyRecord at h
  split at h
  case h_1 r s hnext =>
    obtain ⟨opcode, data, hp⟩ := InnerReader.parsed_of_next hnext
    rcases hpick : r.toAttachment? with _ | a' <;> simp only [hpick] at h
    · cases h
    · cases r with
      | attachment header data' crc =>
        have hfits := fits_of_parsed_attachment hp
        cases hpick
        split at h <;> cases h
        exact hfits
      | _ => cases hpick
  all_goals cases h

end

namespace Writer

/-- **An attachment whose name is too long is not read back.** -/
theorem attachment_unread :
    ¬ ∀ (σ : Type) [Encoders σ] (δ : Type) (D : Decompressor δ) (o : WriteOptions)
        (calls : List (Op × Res McapError Reply)) (w w₁ w' : Writer σ Stream) (a : Attachment)
        (order : HashOrder) (summary : Summary),
      Session (fun _ _ res => ∃ reply, res = .ok reply) o calls w → a.data.length < 2 ^ 64 →
      o.emitAttachmentIndexes = true → attach a w = (.ok (), w₁) →
      finish order w₁ = (.ok summary, w') →
      ∃ file index, w'.Produced file ∧
        summary.attachmentIndexes[w.attachmentIndexes.length]? = some index ∧
        (file.length ≤ ISIZE_MAX →
          Eventually (fun fuel => attachment D fuel file index) (.ok a)) := by
  intro h
  obtain ⟨w, w₁, w', i, es, hsession, hattach, hfin, hnone, -, hfile, hlen⟩ :=
    named_attachment (longName (2 ^ 32))
  obtain ⟨file, index, hproduced, hindex, hread⟩ := h Empty Stored storedLz4 fullOptions [] w w₁ w' _
    .byId _ hsession (by decide) rfl hattach hfin
  obtain rfl := hproduced.unique hfile
  rw [length_longName] at hlen
  obtain ⟨N, hN⟩ := hread (hlen.trans (by decide))
  have hfits := fits_of_attachment (hN N Nat.le.refl)
  rw [StringFits, length_longName] at hfits
  exact absurd hfits (Nat.lt_irrefl _)

end Writer
end Mcap

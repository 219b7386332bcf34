import Mcap.FinishedFile
import Mcap.Conflicts

/-! # Every record that is written is read back

`write_record` writes most kinds of records, but a chunk and its message indexes come from a
`ChunkWriter`, an attachment from an `AttachmentWriter` and the footer from the end of
`finish`: they write the length before the body is there, or go back and patch it.
`ReadsBack r b` says what `b` must be for a reader to get the record `r` from it, and
`records_read_back` that each of the four writers emits such bytes.

A chunk writer and an attachment writer are taken after any calls on them (`Life`), also
calls that were refused or failed in the encoder.
-/
namespace Mcap

/-- **The record is read back from `b`**: its opcode, the length of the body in eight bytes,
and a body from which `parse_record` gets the record. -/
def ReadsBack (r : Record) (b : Bytes) : Prop :=
  ∃ len body, b = r.opcode :: (len ++ body) ∧ len.length = 8 ∧ ofLe len = body.length ∧
    parseRecord r.opcode body = .ok r

theorem readsBack_frame {r : Record} (h : r.Fits) (hlen : r.body.length < 2 ^ 64) :
    ReadsBack r r.frame :=
  ⟨le 8 r.body.length, r.body, rfl, length_le 8 _, ofLe_le_of_lt hlen, parse_body h⟩

theorem length_body_lt {r : Record} {front back : Bytes}
    (h : (front ++ (r.frame ++ back)).length < 2 ^ 64) : r.body.length < 2 ^ 64 := by
  simp only [List.length_append, Record.frame, length_frame] at h
  omega

/-! ## Chunks -/

theorem stringFits_compressionName (compression : Option Compression) :
    StringFits (compressionName compression) := by
  rcases compression with _ | _ | _ <;> decide

section
variable {σ : Type} [Encoders σ] {o : WriteOptions} {base : Bytes}

/-- **A chunk writer after any calls** on a stream that held `base`. -/
inductive ChunkWriter.Life (o : WriteOptions) (base : Bytes) : ChunkWriter σ Stream → Prop
  | new {c mode cw} : c.OnTape base →
      ChunkWriter.new c o.compression mode o.emitMessageIndexes o.calculateChunkCrcs
        o.compressionLevel o.compressionThreads = .ok cw → Life o base cw
  | record {cw r cw'} : Life o base cw → cw.writeRecord r = .ok cw' → Life o base cw'
  | recordFailed {cw r e cw'} : Life o base cw → cw.writeRecord r = .err (e, cw') → Life o base cw'
  | message {cw header data cw'} : Life o base cw → cw.writeMessage header data = .ok cw' →
      Life o base cw'
  | messageFailed {cw header data e cw'} : Life o base cw →
      cw.writeMessage header data = .err (e, cw') → Life o base cw'

theorem ChunkWriter.writeRecord_stays {buffered : Bool} {s : ChunkContents σ} {r : Record}
    {cw' : ChunkWriter σ Stream}
    (h : (placed o buffered base s).writeRecord r = .ok cw' ∨
      ∃ e, (placed o buffered base s).writeRecord r = .err (e, cw')) :
    ∃ s', cw' = placed o buffered base s' := by
  cases hr : r.written with
  | none =>
    have hpanic : (placed o buffered base s).writeRecord r = .panic := by
      rw [writeRecord, Mcap.writeRecord, hr]
    rw [hpanic] at h
    rcases h with h | ⟨e, h⟩ <;> cases h
  | some b =>
    rw [writeRecord_placed (by rw [hr, Record.written_eq_some hr])] at h
    split at h
    · rcases h with h | ⟨e, h⟩ <;> cases h
      exact ⟨_, rfl⟩
    · rcases h with h | ⟨e, h⟩ <;> cases h
      exact ⟨_, rfl⟩

/-- **A chunk writer never leaves its place.** -/
theorem ChunkWriter.Life.placed {cw : ChunkWriter σ Stream} (h : Life o base cw) :
    ∃ buffered s, cw = ChunkWriter.placed o buffered base s := by
  induction h with
  | @new c mode cw hc hnew =>
    cases hs : (Coder.start o.compression o.compressionLevel o.compressionThreads :
        Except IoError (Coder σ × Bytes)) with
    | error e =>
      rw [ChunkWriter.new_error hc mode hs] at hnew
      cases hnew
    | ok r =>
      obtain ⟨coder, out⟩ := r
      rw [ChunkWriter.new_placed hc mode hs] at hnew
      cases hnew
      exact ⟨_, _, rfl⟩
  | record _ hw ih =>
    obtain ⟨buffered, s, rfl⟩ := ih
    exact ⟨buffered, ChunkWriter.writeRecord_stays (.inl hw)⟩
  | recordFailed _ hw ih =>
    obtain ⟨buffered, s, rfl⟩ := ih
    exact ⟨buffered, ChunkWriter.writeRecord_stays (.inr ⟨_, hw⟩)⟩
  | @message cw header data cw' _ hw ih =>
    obtain ⟨buffered, s, rfl⟩ := ih
    exact ⟨buffered, @ChunkWriter.writeRecord_stays _ _ _ _ _ (s.indexMessage o header) _ _
      (.inl hw)⟩
  | @messageFailed cw header data e cw' _ hw ih =>
    obtain ⟨buffered, s, rfl⟩ := ih
    exact ⟨buffered, @ChunkWriter.writeRecord_stays _ _ _ _ _ (s.indexMessage o header) _ _
      (.inr ⟨_, hw⟩)⟩

/-- Records one after the other, each of which is read back from its part of the bytes. -/
inductive AllReadBack : List Record → Bytes → Prop
  | nil : AllReadBack [] []
  | cons {r rs b bs} : ReadsBack r b → AllReadBack rs bs → AllReadBack (r :: rs) (b ++ bs)

theorem allReadBack_content {records : List Record} (h : ∀ r ∈ records, r.Fits)
    (hlen : (content records).length < 2 ^ 64) : AllReadBack records (content records) := by
  induction records with
  | nil => exact .nil
  | cons r rs ih =>
    have hcut : content (r :: rs) = r.frame ++ content rs := rfl
    rw [hcut] at hlen ⊢
    refine .cons (readsBack_frame (h r List.mem_cons_self) ?_) (ih ?_ ?_)
    · exact @length_body_lt r [] (content rs) hlen
    · intro r' hr'
      exact h r' (List.mem_cons_of_mem _ hr')
    · rw [List.length_append] at hlen
      omega

/-- **A finished chunk and its message indexes are read back.** -/
theorem ChunkWriter.Life.readBack {cw : ChunkWriter σ Stream} (h : Life o base cw)
    {c : CountingCrcWriter Stream} {mode : ChunkMode} {index : ChunkIndex}
    (hfin : cw.finish = .ok (c, mode, index)) (hlen : c.inner.bytes.length < 2 ^ 64)
    (harrays : ∀ e ∈ cw.indexes.toList, (e.2.flatMap MessageIndexEntry.bytes).length < 2 ^ 32) :
    ∃ out b bs, c.inner.bytes = base ++ (b ++ bs) ∧
      ReadsBack (.chunk (cw.header out.length) out) b ∧
      AllReadBack (cw.indexes.toList.map indexRecord) bs := by
  obtain ⟨buffered, s, rfl⟩ := h.placed
  cases hf : s.coder.finish with
  | error e =>
    rw [ChunkWriter.finish_placed_error hf] at hfin
    cases hfin
  | ok x =>
    rw [ChunkWriter.finish_placed hf] at hfin
    cases hfin
    generalize s.out ++ x = out at hlen ⊢
    have hbytes : (s.closed o base out).inner.bytes =
        base ++ ((s.chunk o out).frame ++ content s.indexRecords) := List.append_assoc ..
    rw [hbytes] at hlen ⊢
    have hbody : (s.chunk o out).body.length < 2 ^ 64 := length_body_lt hlen
    refine ⟨out, _, _, rfl, readsBack_frame ⟨?_, ?_⟩ hbody, allReadBack_content ?_ ?_⟩
    · exact stringFits_compressionName o.compression
    · show (UInt64.ofNat out.length).toNat = out.length
      refine UInt64.toNat_ofNat_of_lt' ?_
      simp only [ChunkContents.chunk, Record.body, List.length_append] at hbody
      show out.length < 2 ^ 64
      omega
    · intro r hr
      obtain ⟨e, he, rfl⟩ := List.mem_map.mp hr
      exact harrays e he
    · simp only [List.length_append] at hlen
      show (content s.indexRecords).length < 2 ^ 64
      omega

end

/-! ## Attachments -/

section
variable {o : WriteOptions} {base : Bytes} {header : AttachmentHeader} {length : UInt64}
  {a : AttachmentWriter (CountingCrcWriter Stream)}

/-- **An attachment writer after any calls** on a stream that held `base`: `data` is what has
been put into it. -/
inductive AttachmentWriter.Life (o : WriteOptions) (base : Bytes) (header : AttachmentHeader)
    (length : UInt64) : Bytes → AttachmentWriter (CountingCrcWriter Stream) → Prop
  | new {c a} : c.OnTape base →
      AttachmentWriter.new c length header o.calculateAttachmentCrcs = .ok a →
      Life o base header length [] a
  | put {data a bytes a'} : Life o base header length data a → a.putBytes bytes = .ok a' →
      Life o base header length (data ++ bytes) a'
  | refused {data a bytes e a'} : Life o base header length data a →
      a.putBytes bytes = .err (e, a') → Life o base header length data a'

/-- **An attachment writer holds what has been put into it.** -/
theorem AttachmentWriter.Life.holding {data : Bytes} (h : Life o base header length data a) :
    data.length ≤ length.toNat ∧
      ∃ c, a = AttachmentWriter.holding o c base header length data := by
  induction h with
  | new hc hnew =>
    rw [AttachmentWriter.new_holding hc] at hnew
    cases hnew
    exact ⟨Nat.zero_le _, _, rfl⟩
  | @put data a bytes a' _ hput ih =>
    obtain ⟨hle, c, rfl⟩ := ih
    by_cases hfit : data.length + bytes.length ≤ length.toNat
    · rw [AttachmentWriter.putBytes_holding hfit] at hput
      cases hput
      exact ⟨by rw [List.length_append]; exact hfit, c, rfl⟩
    · rw [AttachmentWriter.putBytes_tooLarge hle (by omega)] at hput
      cases hput
  | @refused data a bytes e a' _ hput ih =>
    obtain ⟨hle, c, rfl⟩ := ih
    by_cases hfit : data.length + bytes.length ≤ length.toNat
    · rw [AttachmentWriter.putBytes_holding hfit] at hput
      cases hput
    · rw [AttachmentWriter.putBytes_tooLarge hle (by omega)] at hput
      cases hput
      exact ⟨hle, c, rfl⟩

/-- **A finished attachment is read back.** -/
theorem AttachmentWriter.Life.readBack {data : Bytes} (h : Life o base header length data a)
    {c : CountingCrcWriter Stream} {index : AttachmentIndex} (hfin : a.finish = .ok (c, index))
    (hlen : c.inner.bytes.length < 2 ^ 64) (hname : StringFits header.name)
    (hmedia : StringFits header.mediaType) :
    ∃ b, c.inner.bytes = base ++ b ∧ ReadsBack (attachmentRecord o header data) b := by
  obtain ⟨-, c', rfl⟩ := h.holding
  by_cases hdata : length.toNat = data.length
  · rw [AttachmentWriter.finish_holding hdata] at hfin
    cases hfin
    refine ⟨_, rfl, readsBack_frame ⟨hname, hmedia, ?_, ?_⟩ ?_⟩
    · rw [← hdata]
      exact length.toNat_lt
    · split
      · exact .inr rfl
      · exact .inl rfl
    · rw [← List.append_nil (attachmentRecord o header data).frame] at hlen
      exact length_body_lt hlen
  · rw [AttachmentWriter.finish_incomplete hdata] at hfin
    cases hfin

end

/-! ## The footer -/

theorem stats_of_writeSummaryAndFooterMagic {order : HashOrder} {base : Bytes} {summary : Summary}
    {o : WriteOptions} {s : Stream}
    (h : writeSummaryAndFooterMagic order (Stream.tape base) summary o = .ok s)
    (hemit : o.emitStatistics = true) : summary.stats ≠ none := by
  intro hnone
  unfold writeSummaryAndFooterMagic at h
  obtain ⟨⟨pos, w⟩, -, h⟩ := Res.bind_eq_ok.mp h
  obtain ⟨s₀, hgroups, -⟩ := Res.bind_eq_ok.mp h
  have hwritten : writeGroups order summary o
      ⟨CountingCrcWriter.new w o.calculateSummarySectionCrc, pos, []⟩ = .ok s₀ := by
    cases hr : writeGroups order summary o
      ⟨CountingCrcWriter.new w o.calculateSummarySectionCrc, pos, []⟩ <;> rw [hr] at hgroups <;>
      cases hgroups
    rfl
  unfold writeGroups at hwritten
  obtain ⟨s₁, -, hwritten⟩ := Res.bind_eq_ok.mp hwritten
  obtain ⟨s₂, -, hwritten⟩ := Res.bind_eq_ok.mp hwritten
  obtain ⟨s₃, hstats, -⟩ := Res.bind_eq_ok.mp hwritten
  rw [hnone, hemit] at hstats
  cases hstats

/-- **The footer is read back.** -/
theorem footer_readBack {order : HashOrder} {base : Bytes} {summary : Summary} {o : WriteOptions}
    {s : Stream} (h : writeSummaryAndFooterMagic order (Stream.tape base) summary o = .ok s) :
    ∃ b, s.bytes = base ++ content (summaryRecords o base.length (summaryGroups o order summary)) ++
        b ++ MAGIC ∧
      ReadsBack (.footer (footerOf o base.length (summaryGroups o order summary))) b := by
  rw [writeSummaryAndFooterMagic_wrote (stats_of_writeSummaryAndFooterMagic h) base] at h
  cases h
  refine ⟨_, rfl, readsBack_frame trivial ?_⟩
  simp [Record.body, Footer.bytes]

/-! ## All of them -/

/-- **Every record that is written is read back**: by `write_record`, to any stream and with
the strings, maps and arrays within their 32-bit lengths; as a chunk with its message
indexes; as an attachment; and as the footer. -/
theorem records_read_back {σ : Type} [Encoders σ] :
    (∀ {W : Type} [Write W] (w w' : W) (r : Record), r.Fits → r.body.length < 2 ^ 64 →
      writeRecord w r = .ok w' → ∃ b, writeAll w b = .ok w' ∧ ReadsBack r b) ∧
    (∀ (o : WriteOptions) (base : Bytes) (cw : ChunkWriter σ Stream) (c : CountingCrcWriter Stream)
      (mode : ChunkMode) (index : ChunkIndex), ChunkWriter.Life o base cw →
      cw.finish = .ok (c, mode, index) → c.inner.bytes.length < 2 ^ 64 →
      (∀ e ∈ cw.indexes.toList, (e.2.flatMap MessageIndexEntry.bytes).length < 2 ^ 32) →
      ∃ out b bs, c.inner.bytes = base ++ (b ++ bs) ∧
        ReadsBack (.chunk (cw.header out.length) out) b ∧
        AllReadBack (cw.indexes.toList.map indexRecord) bs) ∧
    (∀ (o : WriteOptions) (base : Bytes) (header : AttachmentHeader) (length : UInt64)
      (data : Bytes) (a : AttachmentWriter (CountingCrcWriter Stream))
      (c : CountingCrcWriter Stream) (index : AttachmentIndex),
      AttachmentWriter.Life o base header length data a → a.finish = .ok (c, index) →
      c.inner.bytes.length < 2 ^ 64 → StringFits header.name → StringFits header.mediaType →
      ∃ b, c.inner.bytes = base ++ b ∧ ReadsBack (attachmentRecord o header data) b) ∧
    (∀ (order : HashOrder) (base : Bytes) (summary : Summary) (o : WriteOptions) (s : Stream),
      writeSummaryAndFooterMagic order (Stream.tape base) summary o = .ok s →
      ∃ b, s.bytes =
          base ++ content (summaryRecords o base.length (summaryGroups o order summary)) ++ b ++
            MAGIC ∧
        ReadsBack (.footer (footerOf o base.length (summaryGroups o order summary))) b) := by
  refine ⟨?_, ?_, ?_, ?_⟩
  · intro W _ w w' r hfits hlen hw
    cases hr : r.written with
    | none =>
      rw [writeRecord, hr] at hw
      cases hw
    | some b =>
      rw [writeRecord, hr] at hw
      rw [Record.written_eq_some hr] at hw
      exact ⟨r.frame, write_eq_ok.mp hw, readsBack_frame hfits hlen⟩
  · intro o base cw c mode index hlife hfin hlen harrays
    exact hlife.readBack hfin hlen harrays
  · intro o base header length data a c index hlife hfin hlen hname hmedia
    exact hlife.readBack hfin hlen hname hmedia
  · intro order base summary o s h
    exact footer_readBack h

/-- A header, an empty chunk, an attachment and a footer on an empty stream. -/
theorem records_read_back_on_empty :
    (∃ b, writeAll Stream.empty b = .ok (Stream.tape b) ∧ ReadsBack (.header ⟨"p", "l"⟩) b) ∧
    (∃ (cw : ChunkWriter Empty Stream) (c : CountingCrcWriter Stream) (out b bs : Bytes),
      c.inner.bytes = b ++ bs ∧ ReadsBack (.chunk (cw.header out.length) out) b) ∧
    (∃ (c : CountingCrcWriter Stream) (b : Bytes),
      c.inner.bytes = b ∧ ReadsBack (attachmentRecord plainOptions ⟨0, 0, "n", "m"⟩ [7]) b) ∧
    ∃ b, ReadsBack
      (.footer (footerOf plainOptions 0 (summaryGroups plainOptions .byId .empty))) b := by
  have hall := @records_read_back Empty _
  have htape : (CountingCrcWriter.new Stream.empty false).OnTape [] := rfl
  refine ⟨?_, ?_, ?_, ?_⟩
  · obtain ⟨b, hw, hb⟩ := hall.1 Stream.empty _ (.header ⟨"p", "l"⟩) ⟨by decide, by decide⟩
      (by decide) rfl
    exact ⟨b, Stream.writeAll_tape [] b, hb⟩
  · have hnew : (ChunkWriter.new (CountingCrcWriter.new Stream.empty false)
        plainOptions.compression .direct plainOptions.emitMessageIndexes
        plainOptions.calculateChunkCrcs plainOptions.compressionLevel
        plainOptions.compressionThreads : Res McapError (ChunkWriter Empty Stream)) = .ok _ := rfl
    obtain ⟨out, b, bs, hc, hb, -⟩ := hall.2.1 plainOptions [] _ _ _ _ (.new htape hnew) rfl
      (by decide) (by decide)
    exact ⟨_, _, out, b, bs, hc, hb⟩
  · obtain ⟨b, hc, hb⟩ := hall.2.2.1 plainOptions [] ⟨0, 0, "n", "m"⟩ 1 [7] _ _ _
      (.put (.new htape rfl) rfl) rfl (by decide) (by decide) (by decide)
    exact ⟨_, b, hc, hb⟩
  · obtain ⟨b, -, hb⟩ := hall.2.2.2 .byId [] .empty plainOptions _ rfl
    exact ⟨b, hb⟩

end Mcap

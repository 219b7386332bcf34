import Mcap.Truncation
import Mcap.StoredLz4

/-! # Valid files that are cut off

A reader that does not wait for the end magic takes the end of the input for the end of the
file if it has read all there is and is not inside a chunk.  That is right between two
records.  But the opcode and the length of a `Chunk`, `DataEnd` or `Footer` record are read
by themselves, and right behind them the reader has also read all there is.

`truncation_noticed_iff` says that this is the only place where a cut in a valid file goes
unnoticed.
-/
namespace Mcap

section
variable {δ : Type} {D : Decompressor δ} {o : LinearReaderOptions}
  {Δ : Decoding D o.recordLengthLimit} {h : Option Hasher}

/-! ## Valid files -/

/-- An item as a record at top level. -/
def Item.raw : Item → UInt8 × Bytes
  | .record opcode body => (opcode, body)
  | .chunk header compressed _ => (op.CHUNK, header.bytes ++ compressed)

/-- The item is what a data section may hold: a chunk that is intact, or a record of another
kind. -/
def Item.Valid (Δ : Decoding D o.recordLengthLimit) : Item → Prop
  | .record opcode _ => opcode ≠ op.CHUNK ∧ opcode ≠ op.DATA_END ∧ opcode ≠ op.FOOTER
  | .chunk header compressed records => ChunkIntact Δ header compressed (frames records) ∧
      (frames records).length ≤ ISIZE_MAX

/-- **A valid file**: the data section with its end, the summary and the footer between the
magics, with the right checksums or none. -/
structure ValidFile (Δ : Decoding D o.recordLengthLimit) (file : Bytes) where
  data : List Item
  dataEnd : DataEnd
  summary : List (UInt8 × Bytes)
  footer : Footer
  file_eq : file = MAGIC ++ frames (data.map Item.raw ++ (op.DATA_END, dataEnd.bytes) ::
    summary ++ [(op.FOOTER, footer.bytes)]) ++ MAGIC
  valid : ∀ item ∈ data, item.Valid Δ
  known : ∀ p ∈ summary, p.1 ≠ op.CHUNK ∧ p.1 ≠ op.DATA_END ∧ p.1 ≠ op.FOOTER
  dataCrc : dataEnd.dataSectionCrc = 0 ∨
    dataEnd.dataSectionCrc = crc32 (MAGIC ++ frames (data.map Item.raw))
  summaryCrc : footer.summaryCrc = 0 ∨ footer.summaryCrc =
    crc32 (frames summary ++ (op.FOOTER :: le 8 footer.bytes.length ++
      (u64 footer.summaryStart ++ u64 footer.summaryOffsetStart)))
  length_le : file.length ≤ USIZE_MAX

namespace ValidFile
variable {file : Bytes} (F : ValidFile Δ file)

/-- The records at top level. -/
def rows : List (UInt8 × Bytes) :=
  F.data.map Item.raw ++ (op.DATA_END, F.dataEnd.bytes) :: F.summary ++
    [(op.FOOTER, F.footer.bytes)]

/-- `n` bytes end between two records at top level, or behind the footer. -/
def Boundary (n : Nat) : Prop :=
  (∃ pre post, F.rows = pre ++ post ∧ n = MAGIC.length + (frames pre).length) ∨
    MAGIC.length + (frames F.rows).length ≤ n

/-- `n` bytes end strictly inside a record at top level. -/
def Inside (n : Nat) : Prop :=
  ∃ pre opcode body post, F.rows = pre ++ (opcode, body) :: post ∧
    MAGIC.length + (frames pre).length < n ∧
    n < MAGIC.length + (frames pre).length + (frame opcode body).length

/-- `n` bytes end right behind the opcode and the length of a record that are read by
themselves. -/
def BehindHeader (n : Nat) : Prop :=
  ∃ pre opcode body post, F.rows = pre ++ (opcode, body) :: post ∧ HeaderFirst o opcode ∧
    n = MAGIC.length + (frames pre).length + 9

end ValidFile

/-! ## Reading a row of records -/

/-- The records are read one after the other, up to the last one. -/
inductive ReadsRow (Δ : Decoding D o.recordLengthLimit) : Option Hasher → List (UInt8 × Bytes) → Prop
  | last {h p evs s} : (∀ rest, Yields Δ ⟨.fileRecord, frame p.1 p.2 ++ rest, h⟩ evs
      ⟨.endMagic, rest, s⟩) → ReadsRow Δ h [p]
  | cons {h h' p evs rows} : (∀ rest, Yields Δ ⟨.fileRecord, frame p.1 p.2 ++ rest, h⟩ evs
      ⟨.fileRecord, rest, h'⟩) → ReadsRow Δ h' rows → ReadsRow Δ h (p :: rows)

/-- The records before one of them are read and left behind, whatever follows, and then it
can be read. -/
theorem ReadsRow.split {pre post : List (UInt8 × Bytes)} {p : UInt8 × Bytes}
    (hr : ReadsRow Δ h (pre ++ p :: post)) : ∃ h' evs,
      (∀ rest, Yields Δ ⟨.fileRecord, frames pre ++ rest, h⟩ evs ⟨.fileRecord, rest, h'⟩) ∧
      ∃ evs' s, Yields Δ ⟨.fileRecord, frame p.1 p.2, h'⟩ evs' s ∧ s.phase.inChunk = false ∧
        s.bytes = [] := by
  induction pre generalizing h with
  | nil =>
    refine ⟨h, [], fun rest => by rw [frames_nil]; exact .refl _, ?_⟩
    cases hr with
    | last hy | cons hy _ => exact ⟨_, _, by simpa using hy [], rfl, rfl⟩
  | cons q pre ih =>
    obtain ⟨opcode, body⟩ := q
    rw [List.cons_append] at hr
    generalize hrows : pre ++ p :: post = rows at hr
    cases hr with
    | last hy => cases pre <;> cases hrows
    | @cons _ h₁ _ evs₁ _ hy hrest =>
      subst hrows
      obtain ⟨h', evs, hpre, hp⟩ := ih hrest
      refine ⟨h', evs₁ ++ evs, fun rest => ?_, hp⟩
      rw [frames_cons, List.append_assoc]
      exact (hy _).trans (hpre rest)

theorem ReadsRow.all {rows : List (UInt8 × Bytes)} (hr : ReadsRow Δ h rows) :
    ∃ h' evs, ∀ rest, Yields Δ ⟨.fileRecord, frames rows ++ rest, h⟩ evs ⟨.endMagic, rest, h'⟩ := by
  induction hr with
  | @last h p evs s hy =>
    refine ⟨s, evs, fun rest => ?_⟩
    obtain ⟨opcode, body⟩ := p
    rw [frames_cons, frames_nil, List.append_nil]
    exact hy rest
  | @cons h h' p evs rows hy _ ih =>
    obtain ⟨h'', evs', hrest⟩ := ih
    refine ⟨h'', evs ++ evs', fun rest => ?_⟩
    obtain ⟨opcode, body⟩ := p
    rw [frames_cons, List.append_assoc]
    exact (hy _).trans (hrest rest)

theorem yields_item (hlimit : o.recordLengthLimit = none) {item : Item} (hv : item.Valid Δ)
    (hlen : (frame item.raw.1 item.raw.2).length ≤ USIZE_MAX) : ∃ evs, ∀ rest h,
      Yields Δ ⟨.fileRecord, frame item.raw.1 item.raw.2 ++ rest, h⟩ evs
        ⟨.fileRecord, rest, Spec.absorb h (frame item.raw.1 item.raw.2)⟩ := by
  cases item with
  | record opcode body =>
    obtain ⟨hchunk, hdata, hfoot⟩ := hv
    exact ⟨_, fun rest h => yields_record (fun hc => absurd hc hchunk) hdata hfoot hlen
      (admits_of_none hlimit _)⟩
  | chunk header compressed records =>
    obtain ⟨hi, hmem⟩ := hv
    cases hemit : o.emitChunks with
    | true =>
      exact ⟨_, fun rest h => yields_record (fun _ => hemit)
        (show op.CHUNK ≠ op.DATA_END by decide) (show op.CHUNK ≠ op.FOOTER by decide) hlen
        (admits_of_none hlimit _)⟩
    | false =>
      exact ⟨_, fun rest h => yields_chunk hemit hi (admits_of_none hlimit _) hmem hlen rest h⟩

theorem ReadsRow.prepend {rows : List (UInt8 × Bytes)} {items : List Item}
    (hlimit : o.recordLengthLimit = none) (hv : ∀ item ∈ items, item.Valid Δ)
    (hlen : (frames (items.map Item.raw)).length ≤ USIZE_MAX)
    (hr : ReadsRow Δ (Spec.absorb h (frames (items.map Item.raw))) rows) :
    ReadsRow Δ h (items.map Item.raw ++ rows) := by
  induction items generalizing h with
  | nil =>
    rw [List.map_nil, frames_nil, Spec.absorb_nil] at hr
    exact hr
  | cons item items ih =>
    rw [List.map_cons, frames_cons, List.length_append] at hlen
    obtain ⟨evs, hy⟩ := yields_item hlimit (hv item List.mem_cons_self)
      (show (frame item.raw.1 item.raw.2).length ≤ USIZE_MAX by omega)
    refine .cons (fun rest => hy rest h) (ih (fun i hi => hv i (List.mem_cons_of_mem _ hi))
      (by omega) ?_)
    rwa [Spec.absorb_absorb, ← frames_cons]

namespace ValidFile
variable {file : Bytes} (F : ValidFile Δ file) {pre post : List (UInt8 × Bytes)} {opcode : UInt8}
  {body : Bytes}

theorem file_eq_rows : file = MAGIC ++ frames F.rows ++ MAGIC := F.file_eq

theorem length_rows : (frames F.rows).length ≤ USIZE_MAX := by
  have hlen := F.length_le
  have hfile := congrArg List.length F.file_eq_rows
  rw [List.length_append, List.length_append] at hfile
  omega

theorem length_row
    (h : F.rows = pre ++ (opcode, body) :: post) : (frame opcode body).length ≤ USIZE_MAX := by
  have hlen := F.length_rows
  rw [h, frames_append, frames_cons, List.length_append, List.length_append] at hlen
  omega

/-- **The records of a valid file are read** one after the other. -/
theorem readsRow (hlimit : o.recordLengthLimit = none) :
    ReadsRow Δ (Spec.absorb (if o.validateDataSectionCrc then some Hasher.new else none) MAGIC)
      F.rows := by
  have hlen := F.length_rows
  have hsummary : F.summary =
      (F.summary.map fun p => Item.record p.1 p.2).map Item.raw := by
    rw [List.map_map]
    exact (List.map_id _).symm
  simp only [rows, frames_append, frames_cons, List.length_append] at hlen
  rw [rows, List.append_assoc, List.cons_append]
  refine ReadsRow.prepend hlimit F.valid (by omega) (.cons (fun rest => yields_dataEnd
    (admits_of_none hlimit _) (fun hasher hh => ?_) rest) ?_)
  · -- the hasher has absorbed what comes before the end of the data section
    rw [Spec.absorb_absorb] at hh
    cases hv : o.validateDataSectionCrc with
    | false =>
      rw [hv] at hh
      cases hh
    | true =>
      rw [hv] at hh
      cases hh
      exact F.dataCrc
  · rw [hsummary]
    refine ReadsRow.prepend hlimit (fun item hi => ?_) (by rw [← hsummary]; omega)
      (.last fun rest => yields_footer (admits_of_none hlimit _) (fun hasher hh => ?_) rest)
    · obtain ⟨p, hp, rfl⟩ := List.mem_map.mp hi
      exact F.known p hp
    · rw [← hsummary] at hh
      cases hv : o.validateSummarySectionCrc with
      | false =>
        rw [hv] at hh
        cases hh
      | true =>
        rw [hv] at hh
        cases hh
        exact F.summaryCrc

/-! ## Where the input ends -/

theorem ends_of_rows (hstart : o.skipStartMagic = false) {bytes rest : Bytes}
    {phase : Phase} {h' : Option Hasher} {evs : List (UInt8 × Bytes)} {fin : Final}
    (hy : Yields Δ ⟨.fileRecord, bytes,
      Spec.absorb (if o.validateDataSectionCrc then some Hasher.new else none) MAGIC⟩ evs
      ⟨phase, rest, h'⟩) (he : EndsCut Δ [] ⟨phase, rest, h'⟩ fin) :
    EndsAs D (.newWithOptions o) (MAGIC ++ bytes) fin := by
  have hinit : Spec.init o (MAGIC ++ bytes) = ⟨.startMagic, MAGIC ++ bytes,
      if o.validateDataSectionCrc then some Hasher.new else none⟩ := by
    rw [Spec.init, hstart]
    rfl
  have hmagic : Yields Δ (Spec.init o (MAGIC ++ bytes)) evs ⟨phase, rest, h'⟩ := by
    rw [hinit]
    exact .again (turn_startMagic_append hstart bytes _) hy
  refine hmagic.endsCut he _ (MAGIC ++ bytes) ?_
  rw [List.append_nil]
  exact sim_init Δ (MAGIC ++ bytes)

theorem take_front (h : F.rows = pre ++ (opcode, body) :: post) {k : Nat}
    (hk : k ≤ (frame opcode body).length) :
    file.take (MAGIC.length + (frames pre).length + k) =
      MAGIC ++ (frames pre ++ (frame opcode body).take k) := by
  have hfile : file = (MAGIC ++ frames pre) ++ (frame opcode body ++ (frames post ++ MAGIC)) := by
    rw [F.file_eq_rows, h, frames_append, frames_cons]
    simp only [List.append_assoc]
  rw [hfile, List.take_append, List.take_of_length_le (by rw [List.length_append]; omega),
    List.append_assoc, List.length_append, Nat.add_sub_cancel_left,
    List.take_append_of_le_length hk]

/-- **Between two records** the input may end. -/
theorem ends_boundary (hlimit : o.recordLengthLimit = none) (hstart : o.skipStartMagic = false)
    (hend : o.skipEndMagic = true) {n : Nat} (hb : F.Boundary n) :
    EndsAs D (.newWithOptions o) (file.take n) .finished := by
  have hrow := F.readsRow hlimit
  have hafter : MAGIC.length + (frames F.rows).length ≤ n →
      EndsAs D (.newWithOptions o) (file.take n) .finished := by
    intro hle
    obtain ⟨h', evs, hy⟩ := hrow.all
    have htake : file.take n = MAGIC ++ (frames F.rows ++
        MAGIC.take (n - (MAGIC.length + (frames F.rows).length))) := by
      rw [congrArg (List.take n) F.file_eq_rows, List.take_append,
        List.take_of_length_le (by rw [List.length_append]; omega), List.length_append,
        List.append_assoc]
    rw [htake]
    have hdone : ∀ bytes, Parses D Δ ⟨.endMagic, bytes, h'⟩ [] .finished := fun bytes =>
      .done (by simp only [Spec.turn, Spec.endMagic, hend, if_true])
    exact ends_of_rows hstart (hy _) (hdone _).endsCut
  rcases hb with ⟨pre, post, hrows, rfl⟩ | hle
  · cases post with
    | nil =>
      refine hafter ?_
      rw [hrows, List.append_nil]
    | cons p post =>
      obtain ⟨opcode, body⟩ := p
      rw [hrows] at hrow
      obtain ⟨h', evs, hy, -⟩ := hrow.split
      have htake := F.take_front hrows (Nat.zero_le (frame opcode body).length)
      rw [Nat.add_zero, List.take_zero, List.append_nil] at htake
      rw [htake]
      have hpre := hy []
      rw [List.append_nil] at hpre
      refine ends_of_rows hstart hpre ?_
      have hverdict : Spec.atEof o ⟨.fileRecord, [], h'⟩ = .finished := by
        simp [Spec.atEof, hend, Phase.inChunk]
      have heof : Parses D Δ ⟨.fileRecord, [], h'⟩ [] (Spec.atEof o ⟨.fileRecord, [], h'⟩) :=
        .eof rfl
      rw [hverdict] at heof
      exact heof.endsCut
  · exact hafter hle

/-- **Inside a record** the end of the input is an error, unless it is behind a header that is
read by itself. -/
theorem ends_inside (hlimit : o.recordLengthLimit = none) (hstart : o.skipStartMagic = false)
    {n : Nat} (hin : F.Inside n) (hb : ¬ F.BehindHeader n) :
    EndsAs D (.newWithOptions o) (file.take n) (.failed .unexpectedEof) := by
  obtain ⟨pre, opcode, body, post, hrows, hlt, hgt⟩ := hin
  have hrow := F.readsRow hlimit
  rw [hrows] at hrow
  obtain ⟨h', evs, hy, evs', s, hp, hout, hnil⟩ := hrow.split
  obtain ⟨k, rfl⟩ : ∃ k, n = MAGIC.length + (frames pre).length + k :=
    ⟨n - (MAGIC.length + (frames pre).length), by omega⟩
  have hk : k < (frame opcode body).length := by omega
  rw [F.take_front hrows hk.le]
  refine ends_of_rows hstart (hy _) ?_
  have hframe : frame opcode body = (frame opcode body).take k ++ (frame opcode body).drop k :=
    (List.take_append_drop k _).symm
  refine ends_inRecord hframe (F.length_row hrows) hp hout hnil ?_ ?_ ?_
  · rw [← List.length_pos_iff, List.length_take]
    omega
  · rw [← List.length_pos_iff, List.length_drop]
    omega
  · rintro ⟨h9, hfirst⟩
    rw [List.length_take] at h9
    exact hb ⟨pre, opcode, body, post, hrows, hfirst, by omega⟩

theorem body_ne_nil (h : F.rows = pre ++ (opcode, body) :: post)
    (hfirst : HeaderFirst o opcode) : body ≠ [] := by
  have hmem : (opcode, body) ∈ F.rows := by
    rw [h]
    exact List.mem_append_right _ List.mem_cons_self
  have hspecial : opcode = op.CHUNK ∨ opcode = op.DATA_END ∨ opcode = op.FOOTER :=
    hfirst.imp_left And.left
  rw [rows, List.append_assoc, List.cons_append, List.mem_append, List.mem_cons, List.mem_append,
    List.mem_singleton] at hmem
  rcases hmem with hitem | hdata | hsummary | hfooter
  · obtain ⟨item, hi, hraw⟩ := List.mem_map.mp hitem
    have hv := F.valid item hi
    cases item with
    | record opcode' body' =>
      cases hraw
      rcases hspecial with hc | hd | hf
      · exact absurd hc hv.1
      · exact absurd hd hv.2.1
      · exact absurd hf hv.2.2
    | chunk header compressed records =>
      cases hraw
      refine List.ne_nil_of_length_pos ?_
      rw [List.length_append, ChunkHeader.length_bytes]
      omega
  · cases hdata
    exact List.ne_nil_of_length_pos (by simp [DataEnd.bytes])
  · have hknown := F.known _ hsummary
    rcases hspecial with hc | hd | hf
    · exact absurd hc hknown.1
    · exact absurd hd hknown.2.1
    · exact absurd hf hknown.2.2
  · cases hfooter
    exact List.ne_nil_of_length_pos (by simp [Footer.bytes])

/-- **Behind a header that is read by itself** the reader takes the end of the input for the
end of the file. -/
theorem ends_behindHeader (hlimit : o.recordLengthLimit = none) (hstart : o.skipStartMagic = false)
    (hend : o.skipEndMagic = true) {n : Nat} (hb : F.BehindHeader n) :
    EndsAs D (.newWithOptions o) (file.take n) .finished ∧ F.Inside n := by
  obtain ⟨pre, opcode, body, post, hrows, hfirst, rfl⟩ := hb
  have hbody := F.body_ne_nil hrows hfirst
  have hpos := List.length_pos_iff.mpr hbody
  have hlen : 9 < (frame opcode body).length := by
    rw [length_frame]
    omega
  have hrow := F.readsRow hlimit
  rw [hrows] at hrow
  obtain ⟨h', evs, hy, -⟩ := hrow.split
  refine ⟨?_, pre, opcode, body, post, hrows, by omega, by omega⟩
  rw [F.take_front hrows hlen.le]
  refine ends_of_rows hstart (hy _) ?_
  refine Mcap.ends_behindHeader hend (List.take_append_drop 9 _).symm (F.length_row hrows) ?_
    hfirst (admits_of_none hlimit _) hbody
  rw [List.length_take]
  omega

end ValidFile

/-- **When truncation is noticed**: a reader that does not wait for the end magic, fed a
prefix of a valid file, ends well behind a record and with an error inside one, unless the
prefix ends right behind the opcode and the length of a record that are read by
themselves. -/
theorem truncation_noticed_iff {file : Bytes} (F : ValidFile Δ file)
    (hlimit : o.recordLengthLimit = none) (hstart : o.skipStartMagic = false)
    (hend : o.skipEndMagic = true) (n : Nat) :
    (F.Boundary n → EndsAs D (.newWithOptions o) (file.take n) .finished) ∧
        (F.Inside n → EndsAs D (.newWithOptions o) (file.take n) (.failed .unexpectedEof)) ↔
      ¬ F.BehindHeader n := by
  constructor
  · rintro ⟨-, hinside⟩ hb
    obtain ⟨hfinished, hin⟩ := F.ends_behindHeader hlimit hstart hend hb
    cases hfinished.unique (hinside hin)
  · intro hb
    exact ⟨F.ends_boundary hlimit hstart hend, fun hin => F.ends_inside hlimit hstart hin hb⟩

end

/-! ## A file with one chunk -/

/-- A chunk with one record of one byte. -/
def tinyChunk : ChunkHeader where
  messageStartTime := 0
  messageEndTime := 0
  uncompressedSize := 10
  uncompressedCrc := 0
  compression := ""
  compressedSize := 10

def tinyFile : Bytes :=
  MAGIC ++ frame op.CHUNK (tinyChunk.bytes ++ frame 0x80 [1]) ++
    frame op.DATA_END (DataEnd.bytes ⟨0⟩) ++ frame op.FOOTER (Footer.bytes ⟨0, 0, 0⟩) ++ MAGIC

/-- The options of a reader that does not wait for the end magic. -/
def impatient : LinearReaderOptions := { skipEndMagic := true }

def tinyValid : ValidFile (o := impatient) storedDecoding tinyFile where
  data := [.chunk tinyChunk (frame 0x80 [1]) [(0x80, [1])]]
  dataEnd := ⟨0⟩
  summary := []
  footer := ⟨0, 0, 0⟩
  file_eq := by decide +kernel
  valid := by
    intro item hi
    obtain rfl := List.mem_singleton.mp hi
    refine ⟨⟨⟨?_, rfl, rfl, fun _ => rfl, fun h => absurd rfl h⟩, .inl rfl⟩, by decide⟩
    show (utf8 "").length < 2 ^ 32
    decide
  known := by simp
  dataCrc := .inl rfl
  summaryCrc := .inl rfl
  length_le := by decide +kernel

/-- A cut inside the chunk. -/
theorem truncation_noticed_iff_tiny :
    (tinyValid.Boundary 20 → EndsAs storedLz4 (.newWithOptions impatient) (tinyFile.take 20) .finished) ∧
        (tinyValid.Inside 20 →
          EndsAs storedLz4 (.newWithOptions impatient) (tinyFile.take 20) (.failed .unexpectedEof)) ↔
      ¬ tinyValid.BehindHeader 20 :=
  truncation_noticed_iff tinyValid rfl rfl rfl 20

/-- **A cut that goes unnoticed**, 9 bytes into the end of the data section. -/
theorem truncation_unnoticed :
    ¬ ∀ (δ : Type) (D : Decompressor δ) (o : LinearReaderOptions)
      (Δ : Decoding D o.recordLengthLimit) (file : Bytes) (F : ValidFile Δ file) (n : Nat),
      o.skipEndMagic = true → o.skipStartMagic = false → o.recordLengthLimit = none →
      F.Inside n → EndsAs D (.newWithOptions o) (file.take n) (.failed .unexpectedEof) := by
  intro h
  have hends := h Stored storedLz4 impatient storedDecoding tinyFile tinyValid 76 rfl rfl rfl
    ⟨[(op.CHUNK, tinyChunk.bytes ++ frame 0x80 [1])], op.DATA_END, DataEnd.bytes ⟨0⟩,
      [(op.FOOTER, Footer.bytes ⟨0, 0, 0⟩)], rfl, by decide +kernel, by decide +kernel⟩
  have hrun : drive storedLz4 (fun n _ => n) 20 (.newWithOptions impatient) (tinyFile.take 76) =
      some ([(0x80, [1])], .finished) := by decide +kernel
  cases hends.run (run_of_drive storedLz4 hrun)

end Mcap

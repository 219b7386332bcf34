import Mcap.SwiftStreamedReader

/-! # How exactly the streamed reader of the Swift library reads files

A file is a row of records between magic bytes, of opcodes that are known or not, and a chunk in it has
a row of records for its data (`ValidFile`).  However such a file is appended, the reader returns its
records one by one, but for one kind of files: a chunk has to end with a record of a known opcode.
What is left of a chunk behind its last known record, and a chunk of no records, are an error
(`streamed_exact_iff`).

`Outcome` says what a record reader makes of some bytes of a row of records.  From it comes what one
call of `nextRecord` does (`Reading.nextRecord`), and by induction what any calls do.
-/
namespace Mcap
namespace Swift

/-! ## Files -/

/-- A record with its bytes. -/
inductive Piece
  | known (record : Record) (body : Bytes)
  | unknown (opcode : UInt8) (body : Bytes)
deriving DecidableEq

namespace Piece

def opcode : Piece → UInt8
  | known record _ => record.opcode.rawValue
  | unknown opcode _ => opcode

def body : Piece → Bytes
  | known _ body => body
  | unknown _ body => body

def bytes (p : Piece) : Bytes := frame p.opcode p.body

/-- What is returned for it. -/
def record? : Piece → Option Record
  | known record _ => some record
  | unknown _ _ => none

/-- A record of a known opcode is one of the format. -/
def Valid : Piece → Prop
  | known record body => Encodes record body
  | unknown opcode _ => Opcode.ofRawValue? opcode = none

end Piece

/-- The bytes of a row of records. -/
def bytesOf (pieces : List Piece) : Bytes := pieces.flatMap Piece.bytes

@[simp] theorem bytesOf_nil : bytesOf [] = [] := rfl

@[simp] theorem bytesOf_cons (p : Piece) (pieces : List Piece) :
    bytesOf (p :: pieces) = p.bytes ++ bytesOf pieces := rfl

theorem bytesOf_append (pieces pieces' : List Piece) :
    bytesOf (pieces ++ pieces') = bytesOf pieces ++ bytesOf pieces' := List.flatMap_append

/-- A record of a file, and the records in it if it is a chunk. -/
structure Entry where
  piece : Piece
  inner : List Piece
deriving DecidableEq

namespace Entry

/-- The records that are to be returned for a record of a file. -/
def shown (e : Entry) : List Record :=
  match e.piece.record? with
  | some (.chunk _) => e.inner.filterMap Piece.record?
  | record => record.toList

/-- **A record of a file**: a chunk is not compressed, its CRC is right or 0, and its data are records,
none of them a chunk. -/
structure Valid (e : Entry) : Prop where
  piece : e.piece.Valid
  plain : ∀ chunk, e.piece.record? = some (.chunk chunk) → chunk.compression = ""
  crc : ∀ chunk, e.piece.record? = some (.chunk chunk) →
    chunk.uncompressedCRC = 0 ∨ chunk.uncompressedCRC = crc32 chunk.records
  data : ∀ chunk, e.piece.record? = some (.chunk chunk) → chunk.records = bytesOf e.inner
  inner : ∀ chunk, e.piece.record? = some (.chunk chunk) → ∀ p ∈ e.inner,
    p.Valid ∧ ∀ nested, p.record? ≠ some (.chunk nested)

/-- **A chunk that ends with a record of a known opcode.** -/
def Closed (e : Entry) : Prop :=
  ∀ chunk, e.piece.record? = some (.chunk chunk) →
    ∃ front record body, e.inner = front ++ [.known record body]

end Entry

/-- **A valid file** without compression.  `Data.count` is an `Int`, and no data come near its bound. -/
structure ValidFile (file : Bytes) where
  entries : List Entry
  file_eq : file = MAGIC ++ (bytesOf (entries.map Entry.piece) ++ MAGIC)
  valid : ∀ e ∈ entries, e.Valid
  size : file.length + 9 ≤ intMax

namespace ValidFile
variable {file : Bytes}

/-- The records of known opcodes, with chunks expanded. -/
def records (F : ValidFile file) : List Record := F.entries.flatMap Entry.shown

/-- Every chunk ends with a record of a known opcode. -/
def ChunksClosed (F : ValidFile file) : Prop := ∀ e ∈ F.entries, e.Closed

end ValidFile

/-! ## Record readers -/

namespace RecordReader

/-- The bytes that have not been read. -/
def unread (r : RecordReader) : Bytes := r.buffer.drop r.offset

def Fits (r : RecordReader) : Prop := r.offset ≤ r.buffer.length

theorem length_unread (r : RecordReader) : r.unread.length = r.buffer.length - r.offset :=
  List.length_drop

theorem isDone_iff (r : RecordReader) : r.isDone = true ↔ r.unread = [] := by
  unfold isDone bytesRemaining
  rw [← length_unread, decide_eq_true_iff, List.length_eq_zero_iff]

theorem fits_new (data : Bytes) : (new data).Fits := Nat.zero_le _

@[simp] theorem unread_append (r : RecordReader) (data : Bytes) :
    (r.append data).unread = r.unread ++ data := rfl

theorem fits_append (r : RecordReader) (data : Bytes) : (r.append data).Fits := Nat.zero_le _

end RecordReader

open RecordReader

theorem Encodes.body_ne_nil {r : Record} {body : Bytes} (h : Encodes r body) : body ≠ [] := by
  have hpos : 0 < body.length := by
    cases h with
    | noCRC tail hfits =>
      simp only [List.length_append, length_u32]
      omega
    | fields tail hfits hmessage =>
      rw [List.length_append]
      cases r <;>
        simp only [Record.fields, Header.fields, Footer.fields, Schema.fields, Channel.fields,
          Message.fields, Chunk.fields, MessageIndex.fields, ChunkIndex.fields, Attachment.fields,
          AttachmentIndex.fields, Statistics.fields, Metadata.fields, MetadataIndex.fields,
          SummaryOffset.fields, DataEnd.fields, List.length_append, length_writeString, length_u16,
          length_u32, length_u64] <;> omega
  exact List.length_pos_iff.mp hpos

section
variable {repair : Bytes → String} {r : RecordReader} {p : Piece} {rest : Bytes}

theorem length_bytes (p : Piece) : p.bytes.length = 9 + p.body.length := length_frame _ _

theorem recordLength_eq (h : r.unread <+: p.bytes ++ rest) (hlong : 9 ≤ r.unread.length)
    (hbody : p.body.length < 2 ^ 64) : r.recordLength = p.body.length := by
  obtain ⟨missing, hmissing⟩ := h
  unfold recordLength
  have hdrop : r.buffer.drop (r.offset + 1) = r.unread.drop 1 := List.drop_drop.symm
  have htake : (r.unread.drop 1).take 8 = le 8 p.body.length := by
    have heq := congrArg (fun l => (l.drop 1).take 8) hmissing
    rw [List.drop_append_of_le_length (by omega), List.take_append_of_le_length
      (by rw [List.length_drop]; omega)] at heq
    rw [heq]
    unfold Piece.bytes frame
    rw [List.cons_append, List.drop_one, List.tail_cons, List.append_assoc,
      List.take_append_of_le_length (by rw [length_le]), List.take_of_length_le (by rw [length_le])]
  rw [hdrop, htake]
  exact ofLe_le_of_lt hbody

theorem opcode_eq (h : r.unread <+: p.bytes ++ rest) (hlong : 9 ≤ r.unread.length) :
    r.buffer.getD r.offset 0 = p.opcode := by
  obtain ⟨missing, hmissing⟩ := h
  have hget : r.buffer.getD r.offset 0 = r.unread.getD 0 0 := by
    unfold unread
    rw [List.getD_eq_getElem?_getD, List.getD_eq_getElem?_getD, List.getElem?_drop, Nat.add_zero]
  rw [hget]
  cases hunread : r.unread with
  | nil =>
    rw [hunread] at hlong
    cases hlong
  | cons b bytes =>
    rw [hunread] at hmissing
    exact (List.cons.inj hmissing).1

/-- The reader behind a record. -/
def RecordReader.behind (r : RecordReader) (p : Piece) : RecordReader :=
  { r with offset := r.offset + p.bytes.length }

/-- **A turn of the loop**, where more than an opcode and a length are there. -/
theorem loop_piece (hvalid : p.Valid) (h : r.unread <+: p.bytes ++ rest) (hlong : 9 < r.unread.length)
    (hfits : r.Fits) (hmax : r.offset + (p.bytes ++ rest).length + 9 ≤ intMax) (turns : Nat) :
    nextRecordLoop repair (turns + 1) r =
      if p.bytes.length ≤ r.unread.length then
        match p.record? with
        | none => nextRecordLoop repair turns (r.behind p)
        | some record => (.ok (some record), r.behind p)
      else (.ok none, r) := by
  have hunread := r.length_unread
  have hlength := length_bytes p
  have hintMax : intMax < 2 ^ 64 := by decide
  simp only [List.length_append] at hmax
  unfold Fits at hfits
  have hrecordLength := recordLength_eq h hlong.le (by omega)
  have hend : r.recordEnd = .ok (r.offset + p.bytes.length) := by
    unfold recordEnd
    rw [plus_ok (by omega), hrecordLength, Res.ok_bind, toInt_ok (by omega), Res.ok_bind,
      plus_ok (by omega), hlength, Nat.add_assoc]
  rw [nextRecordLoop, plus_ok (by omega), hend, opcode_eq h hlong.le]
  dsimp only
  rw [if_pos (by omega)]
  by_cases hwhole : p.bytes.length ≤ r.unread.length
  · rw [if_pos (by omega), if_pos hwhole]
    have hbody : (r.buffer.drop (r.offset + 9)).take r.recordLength = p.body := by
      obtain ⟨missing, hmissing⟩ := h
      have hdrop : r.buffer.drop (r.offset + 9) = r.unread.drop 9 := List.drop_drop.symm
      rw [hdrop, hrecordLength]
      have heq := congrArg (fun l => (l.drop 9).take p.body.length) hmissing
      rw [List.drop_append_of_le_length (by omega), List.take_append_of_le_length
        (by rw [List.length_drop]; omega)] at heq
      rw [heq]
      have hframe : p.bytes ++ rest = (p.opcode :: le 8 p.body.length) ++ (p.body ++ rest) := by
        unfold Piece.bytes frame
        simp only [List.cons_append, List.append_assoc]
      rw [hframe, List.drop_left' (by rw [List.length_cons, length_le]), List.take_left]
    cases p with
    | unknown opcode body =>
      have hunknown : Opcode.ofRawValue? (Piece.unknown opcode body).opcode = none := hvalid
      rw [hunknown]
      rfl
    | known record body =>
      have hknown : Opcode.ofRawValue? (Piece.known record body).opcode = some record.opcode :=
        Opcode.ofRawValue?_rawValue _
      have hread := deserialize_encoded repair hvalid (by
        have hlength' : (Piece.known record body).body.length ≤ intMax := by omega
        exact hlength')
      rw [hknown, hbody]
      show (some <$> deserializingFields (Record.read repair record.opcode) body, _) = _
      rw [hread]
      rfl
  · rw [if_neg (by omega), if_neg hwhole]

theorem loop_short (hshort : r.unread.length ≤ 9) (hmax : r.offset + 9 ≤ intMax)
    (turns : Nat) : nextRecordLoop repair turns r = (.ok none, r) := by
  have hunread := r.length_unread
  cases turns with
  | zero => rfl
  | succ turns =>
    unfold nextRecordLoop
    rw [plus_ok hmax]
    dsimp only
    rw [if_neg (by omega)]

/-- **What a record reader makes of bytes** that are those of records, or a part of them: it returns
the first of a known opcode, or reads what there is of others. -/
inductive Outcome (pieces : List Piece) (tail unread : Bytes) :
    Out (Option Record) × RecordReader → Prop
  | record {skipped record body pieces' r'} (hpieces : pieces = skipped ++ .known record body :: pieces')
      (hskipped : ∀ p ∈ skipped, p.record? = none)
      (hunread : unread = bytesOf skipped ++ ((Piece.known record body).bytes ++ r'.unread))
      (hfits : Fits r') : Outcome pieces tail unread (.ok (some record), r')
  | none {skipped pieces' r'} (hpieces : pieces = skipped ++ pieces')
      (hskipped : ∀ p ∈ skipped, p.record? = none)
      (hunread : unread = bytesOf skipped ++ r'.unread) (hfits : Fits r')
      (hwhole : unread = bytesOf pieces ++ tail → r'.unread.length ≤ 9) :
      Outcome pieces tail unread (.ok .none, r')

theorem unread_behind (hwhole : r.unread = p.bytes ++ rest) : (r.behind p).unread = rest := by
  have hdrop : (r.behind p).unread = r.unread.drop p.bytes.length := List.drop_drop.symm
  rw [hdrop, hwhole, List.drop_left]

/-- **The loop of `nextRecord`.** -/
theorem loop_outcome {tail : Bytes} (htail : tail.length ≤ 9) {turns : Nat} {pieces : List Piece}
    (hvalid : ∀ p ∈ pieces, p.Valid) (h : r.unread <+: bytesOf pieces ++ tail)
    (hfits : r.Fits) (hmax : r.offset + (bytesOf pieces ++ tail).length + 9 ≤ intMax)
    (hturns : r.unread.length < turns) :
    Outcome pieces tail r.unread (nextRecordLoop repair turns r) := by
  induction turns generalizing pieces r with
  | zero => cases hturns
  | succ turns ih =>
    rcases Nat.lt_or_ge 9 r.unread.length with hlong | hshort
    · cases pieces with
      | nil =>
        have hlength := h.length_le
        rw [bytesOf_nil, List.nil_append] at hlength
        omega
      | cons p pieces =>
        rw [bytesOf_cons, List.append_assoc] at h hmax
        rw [loop_piece (hvalid p List.mem_cons_self) h hlong hfits hmax]
        split
        · rename_i hwhole
          obtain ⟨more, hmore⟩ : ∃ more, r.unread = p.bytes ++ more := by
            obtain ⟨more, hmore⟩ := List.prefix_of_prefix_length_le
              (List.prefix_append p.bytes (bytesOf pieces ++ tail)) h hwhole
            exact ⟨more, hmore.symm⟩
          have hbehind := unread_behind hmore
          have hpart : more <+: bytesOf pieces ++ tail := by
            rw [hmore] at h
            exact (List.prefix_append_right_inj p.bytes).mp h
          have hfits' : (r.behind p).Fits := by
            have hunread := r.length_unread
            unfold Fits RecordReader.behind at *
            dsimp only
            omega
          cases hp : p.record? with
          | some record =>
            cases p with
            | unknown opcode body => cases hp
            | known record' body =>
              cases hp
              exact .record (show _ = [] ++ _ from rfl) (fun q hq => absurd hq List.not_mem_nil)
                (by rw [bytesOf_nil, List.nil_append, hbehind, hmore]) hfits'
          | none =>
            have hlength := length_bytes p
            have hcount := congrArg List.length hmore
            rw [List.length_append] at hcount
            have hout := ih (r := r.behind p) (fun q hq => hvalid q (List.mem_cons_of_mem _ hq))
              (by rwa [hbehind]) hfits' (by
                unfold RecordReader.behind
                dsimp only
                simp only [List.length_append] at hmax ⊢
                omega) (by rw [hbehind]; omega)
            dsimp only
            have hskip : ∀ {skipped : List Piece}, (∀ q ∈ skipped, q.record? = none) →
                ∀ q ∈ p :: skipped, q.record? = none := by
              intro skipped hskipped q hq
              rcases List.mem_cons.mp hq with rfl | hq
              · exact hp
              · exact hskipped q hq
            rw [hbehind] at hout
            generalize nextRecordLoop repair turns (r.behind p) = out at hout
            cases hout with
            | record hpieces hskipped hunread hfits =>
              refine .record (congrArg (p :: ·) hpieces) (hskip hskipped) ?_ hfits
              rw [hmore, hunread, bytesOf_cons, List.append_assoc]
            | none hpieces hskipped hunread hfits hwhole =>
              refine .none (congrArg (p :: ·) hpieces) (hskip hskipped) ?_ hfits ?_
              · rw [hmore, hunread, bytesOf_cons, List.append_assoc]
              · intro heq
                rw [hmore, bytesOf_cons, List.append_assoc] at heq
                exact hwhole (List.append_cancel_left heq)
        · rename_i hpart
          refine .none (show _ = [] ++ _ from rfl) (fun q hq => absurd hq List.not_mem_nil) rfl hfits ?_
          intro heq
          rw [heq, bytesOf_cons] at hpart
          simp only [List.length_append] at hpart
          omega
    · have hcount := r.length_unread
      rw [loop_short hshort (by omega)]
      exact .none (show _ = [] ++ _ from rfl) (fun q hq => absurd hq List.not_mem_nil) rfl hfits
        fun _ => hshort

theorem loop_buffer (repair : Bytes → String) (turns : Nat) (r : RecordReader) :
    (nextRecordLoop repair turns r).2.buffer = r.buffer := by
  induction turns generalizing r with
  | zero => rfl
  | succ turns ih =>
    unfold nextRecordLoop
    repeat' split
    all_goals first
      | rfl
      | exact ih _

theorem nextRecord_buffer (repair : Bytes → String) (r : RecordReader) :
    (r.nextRecord repair).2.buffer = r.buffer :=
  loop_buffer repair _ r

theorem nextRecord_outcome (repair : Bytes → String) {tail : Bytes} (htail : tail.length ≤ 9)
    {pieces : List Piece} (hvalid : ∀ p ∈ pieces, p.Valid) (h : r.unread <+: bytesOf pieces ++ tail)
    (hfits : r.Fits) (hmax : r.offset + (bytesOf pieces ++ tail).length + 9 ≤ intMax) :
    Outcome pieces tail r.unread (r.nextRecord repair) :=
  loop_outcome htail hvalid h hfits hmax (by rw [r.length_unread]; omega)

end

/-! ## Chunks -/

open MCAPStreamedReader

/-- The reader of a chunk, in front of some of its records. -/
structure InChunk (c : RecordReader) (pieces : List Piece) : Prop where
  unread : c.unread = bytesOf pieces
  fits : c.Fits
  valid : ∀ p ∈ pieces, p.Valid
  size : c.buffer.length + 9 ≤ intMax

theorem RecordReader.Fits.length_eq {r : RecordReader} (h : r.Fits) :
    r.offset + r.unread.length = r.buffer.length := by
  rw [r.length_unread]
  exact Nat.add_sub_cancel' h

section
variable {repair : Bytes → String} {handlers : DecompressHandlers} {c : RecordReader}
  {pieces : List Piece} {s : MCAPStreamedReader}

/-- **What a call in a chunk comes to**: the next of its records of a known opcode, or an error if there
is none left. -/
inductive ChunkCall (c : RecordReader) (pieces : List Piece) (s : MCAPStreamedReader) :
    Out (Option Record) × MCAPStreamedReader → Prop
  | last {skipped record body} (hpieces : pieces = skipped ++ [.known record body])
      (hskipped : ∀ p ∈ skipped, p.record? = none) :
      ChunkCall c pieces s (.ok (some record), { s with chunkReader := none })
  | more {skipped record body pieces' c'} (hpieces : pieces = skipped ++ .known record body :: pieces')
      (hskipped : ∀ p ∈ skipped, p.record? = none) (hne : pieces' ≠ []) (h : InChunk c' pieces') :
      ChunkCall c pieces s (.ok (some record), { s with chunkReader := some c' })
  | throws {e s'} (hunknown : ∀ p ∈ pieces, p.record? = none) : ChunkCall c pieces s (.err e, s')

theorem bytesOf_eq_nil {pieces : List Piece} (h : bytesOf pieces = []) : pieces = [] := by
  cases pieces with
  | nil => rfl
  | cons p pieces =>
    have hlength := congrArg List.length h
    rw [bytesOf_cons, List.length_append, length_bytes, List.length_nil] at hlength
    omega

theorem unknown_of_short (hvalid : ∀ p ∈ pieces, p.Valid) (h : (bytesOf pieces).length ≤ 9) :
    ∀ p ∈ pieces, p.record? = none := by
  intro p hp
  cases p with
  | unknown opcode body => rfl
  | known record body =>
    have hbody := List.length_pos_iff.mpr (Encodes.body_ne_nil (hvalid _ hp))
    obtain ⟨front, back, rfl⟩ := List.append_of_mem hp
    rw [bytesOf_append, bytesOf_cons] at h
    simp only [List.length_append] at h
    have hlength := length_bytes (.known record body)
    have hbody' : (Piece.known record body).body = body := rfl
    rw [hbody'] at hlength
    omega

theorem nextInChunk_spec (repair : Bytes → String) (h : InChunk c pieces) :
    ChunkCall c pieces s (nextInChunk repair c s) := by
  have hpart : c.unread <+: bytesOf pieces ++ [] := ⟨[], by rw [h.unread]⟩
  have hnil : ([] : Bytes).length ≤ 9 := Nat.zero_le 9
  have hout := nextRecord_outcome repair hnil h.valid hpart h.fits
    (by rw [List.append_nil, ← h.unread, h.fits.length_eq]; exact h.size)
  have hbuffer := nextRecord_buffer repair c
  unfold nextInChunk
  generalize c.nextRecord repair = out at hout hbuffer
  cases hout with
  | @record skipped record body pieces' r' hpieces hskipped hunread hfits =>
    have hrest : r'.unread = bytesOf pieces' := by
      rw [h.unread, hpieces, bytesOf_append, bytesOf_cons] at hunread
      exact (List.append_cancel_left (List.append_cancel_left hunread)).symm
    dsimp only
    by_cases hdone : r'.isDone
    · rw [if_pos hdone]
      have hnil := r'.isDone_iff.mp hdone
      rw [hrest] at hnil
      obtain rfl := bytesOf_eq_nil hnil
      exact .last hpieces hskipped
    · rw [if_neg hdone]
      refine .more hpieces hskipped ?_ ⟨hrest, hfits, ?_, ?_⟩
      · rintro rfl
        exact hdone (r'.isDone_iff.mpr hrest)
      · intro p hp
        exact h.valid p (hpieces ▸ List.mem_append_right _ (List.mem_cons_of_mem _ hp))
      · rw [show r'.buffer = c.buffer from hbuffer]
        exact h.size
  | @none skipped pieces' r' hpieces hskipped hunread hfits hwhole =>
    refine .throws ?_
    have hshort := hwhole (by rw [h.unread, List.append_nil])
    have hrest : r'.unread = bytesOf pieces' := by
      rw [h.unread, hpieces, bytesOf_append] at hunread
      exact (List.append_cancel_left hunread).symm
    rw [hrest] at hshort
    intro p hp
    rw [hpieces] at hp
    rcases List.mem_append.mp hp with hp | hp
    · exact hskipped p hp
    · exact unknown_of_short (fun q hq => h.valid q (hpieces ▸ List.mem_append_right _ hq)) hshort p hp

end

/-! ## A reader in a file -/

section
variable {repair : Bytes → String} {handlers : DecompressHandlers} {file : Bytes}
  {F : ValidFile file} {appended rest : Bytes} {returned records : List Record}
  {s : MCAPStreamedReader} {pieces : List Piece} {e : Entry} {chunk : Chunk} {es : List Entry}

/-- **Where a reader is** in a file: the bytes and the records that are to come.  The chunks that it has
left end with records of known opcodes. -/
inductive At (F : ValidFile file) : MCAPStreamedReader → Bytes → List Record → Prop
  | magic {t} (hmagic : t.readHeaderMagic = false) (hchunk : t.chunkReader = none) :
      At F t file F.records
  | between {t passed es} (hmagic : t.readHeaderMagic = true) (hchunk : t.chunkReader = none)
      (hentries : F.entries = passed ++ es) (hclosed : ∀ e ∈ passed, e.Closed) :
      At F t (bytesOf (es.map Entry.piece) ++ MAGIC) (es.flatMap Entry.shown)
  | inChunk {t c passed e es front pieces chunk} (hmagic : t.readHeaderMagic = true)
      (hchunk : t.chunkReader = some c) (hentries : F.entries = passed ++ e :: es)
      (hclosed : ∀ e ∈ passed, e.Closed) (hpiece : e.piece.record? = some (.chunk chunk))
      (hinner : e.inner = front ++ pieces) (hne : pieces ≠ []) (h : InChunk c pieces) :
      At F t (bytesOf (es.map Entry.piece) ++ MAGIC)
        (pieces.filterMap Piece.record? ++ es.flatMap Entry.shown)

/-- **A reader of a file**, of which some bytes have been appended and some records returned. -/
structure Reading (F : ValidFile file) (appended : Bytes) (returned : List Record)
    (s : MCAPStreamedReader) : Prop where
  fits : s.recordReader.Fits
  within : s.recordReader.buffer.length ≤ appended.length
  ahead : ∃ consumed rest records, file = consumed ++ rest ∧
    appended = consumed ++ s.recordReader.unread ∧ F.records = returned ++ records ∧
    At F s rest records

theorem reading_new (F : ValidFile file) : Reading F [] [] .new where
  fits := Nat.zero_le _
  within := Nat.zero_le _
  ahead := ⟨[], file, F.records, rfl, rfl, rfl, .magic rfl rfl⟩

theorem Reading.append (h : Reading F appended returned s) (data : Bytes) :
    Reading F (appended ++ data) returned (s.append data) := by
  obtain ⟨consumed, rest, records, hfile, happended, hrecords, hat⟩ := h.ahead
  refine ⟨fits_append _ _, ?_, consumed, rest, records, hfile, ?_, hrecords, ?_⟩
  · have hlength : (s.recordReader.append data).buffer.length =
        s.recordReader.unread.length + data.length :=
      List.length_append
    have hunread := s.recordReader.length_unread
    have hwithin := h.within
    show (s.recordReader.append data).buffer.length ≤ _
    rw [hlength, List.length_append]
    omega
  · show appended ++ data = consumed ++ (s.recordReader.append data).unread
    rw [happended, unread_append, List.append_assoc]
  · cases hat with
    | magic hmagic hchunk => exact .magic hmagic hchunk
    | between hmagic hchunk hentries hclosed => exact .between hmagic hchunk hentries hclosed
    | inChunk hmagic hchunk hentries hclosed hpiece hinner hne h =>
      exact .inChunk hmagic hchunk hentries hclosed hpiece hinner hne h

theorem filterMap_skipped {skipped : List Piece} (h : ∀ p ∈ skipped, p.record? = none) :
    (skipped ++ pieces).filterMap Piece.record? = pieces.filterMap Piece.record? := by
  rw [List.filterMap_append, List.filterMap_eq_nil_iff.mpr h, List.nil_append]

theorem not_closed {front : List Piece} (hpiece : e.piece.record? = some (.chunk chunk))
    (hinner : e.inner = front ++ pieces) (hunknown : ∀ p ∈ pieces, p.record? = none)
    (hne : pieces = [] → front = []) : ¬ e.Closed := by
  intro hclosed
  obtain ⟨front', record, body, hlast⟩ := hclosed chunk hpiece
  rcases List.eq_nil_or_concat' pieces with rfl | ⟨pieces', p, rfl⟩
  · rw [hne rfl, List.append_nil] at hinner
    rw [hinner] at hlast
    exact List.append_ne_nil_of_right_ne_nil _ (List.cons_ne_nil _ _) hlast.symm
  · rw [hinner, ← List.append_assoc] at hlast
    have heq := (List.append_inj' hlast rfl).2
    cases heq
    have hknown := hunknown (.known record body) (List.mem_append_right _ List.mem_cons_self)
    cases hknown

/-- **What a call of `nextRecord` comes to.** -/
inductive Called (F : ValidFile file) (appended : Bytes) (returned : List Record) :
    Out (Option Record) × MCAPStreamedReader → Prop
  | record {record s'} (h : Reading F appended (returned ++ [record]) s') :
      Called F appended returned (.ok (some record), s')
  | none {s'} (h : Reading F appended returned s')
      (hwhole : appended = file → returned = F.records ∧ F.ChunksClosed) :
      Called F appended returned (.ok .none, s')
  | throws {e s'} (h : ¬ F.ChunksClosed) : Called F appended returned (.err e, s')

/-- **A call in a chunk.** -/
theorem called_inChunk {c : RecordReader} {passed : List Entry} {front : List Piece}
    {consumed : Bytes} (hfits : s.recordReader.Fits)
    (hwithin : s.recordReader.buffer.length ≤ appended.length)
    (hfile : file = consumed ++ (bytesOf (es.map Entry.piece) ++ MAGIC))
    (happended : appended = consumed ++ s.recordReader.unread)
    (hrecords : F.records = returned ++ (pieces.filterMap Piece.record? ++ es.flatMap Entry.shown))
    (hmagic : s.readHeaderMagic = true) (hentries : F.entries = passed ++ e :: es)
    (hclosed : ∀ e ∈ passed, e.Closed) (hpiece : e.piece.record? = some (.chunk chunk))
    (hinner : e.inner = front ++ pieces) (hne : pieces = [] → front = []) (h : InChunk c pieces) :
    Called F appended returned (nextInChunk repair c s) := by
  have hcall := nextInChunk_spec (s := s) repair h
  generalize nextInChunk repair c s = out at hcall
  cases hcall with
  | @last skipped record body hpieces hskipped =>
    have hentries' : F.entries = (passed ++ [e]) ++ es := by
      rw [hentries, List.append_assoc]
      rfl
    refine .record ⟨hfits, hwithin, consumed, _, _, hfile, happended, ?_,
      .between hmagic rfl hentries' ?_⟩
    · rw [hrecords, hpieces, filterMap_skipped hskipped, List.append_assoc]
      rfl
    · intro e' he'
      rcases List.mem_append.mp he' with he' | he'
      · exact hclosed e' he'
      · cases List.mem_singleton.mp he'
        intro _ _
        exact ⟨front ++ skipped, record, body, by rw [hinner, hpieces, List.append_assoc]⟩
  | @more skipped record body pieces' c' hpieces hskipped hne' h' =>
    have hinner' : e.inner = (front ++ (skipped ++ [.known record body])) ++ pieces' := by
      rw [hinner, hpieces]
      simp only [List.append_assoc, List.singleton_append]
    refine .record ⟨hfits, hwithin, consumed, _, _, hfile, happended, ?_,
      .inChunk hmagic rfl hentries hclosed hpiece hinner' hne' h'⟩
    rw [hrecords, hpieces, filterMap_skipped hskipped, List.append_assoc]
    rfl
  | throws hunknown =>
    refine .throws fun hall => ?_
    exact not_closed hpiece hinner hunknown hne
      (hall e (hentries ▸ List.mem_append_right _ List.mem_cons_self))

theorem decompress_chunk (handlers : DecompressHandlers) (hvalid : e.Valid)
    (hpiece : e.piece.record? = some (.chunk chunk)) :
    decompress handlers chunk = .ok (bytesOf e.inner) := by
  unfold decompress
  rw [if_pos (hvalid.plain chunk hpiece), Res.ok_bind]
  dsimp only
  rw [if_neg, hvalid.data chunk hpiece]
  rintro ⟨hzero, hne⟩
  rcases hvalid.crc chunk hpiece with h | h
  · exact hzero h
  · exact hne h

theorem length_inner (hvalid : e.Valid) (hpiece : e.piece.record? = some (.chunk chunk)) :
    (bytesOf e.inner).length ≤ e.piece.bytes.length := by
  have hdata := hvalid.data chunk hpiece
  have hencodes := hvalid.piece
  obtain ⟨piece, inner⟩ := e
  cases piece with
  | unknown opcode body => cases hpiece
  | known record body =>
    cases hpiece
    rw [← hdata, length_bytes]
    have hbody : chunk.records.length ≤ body.length := by
      cases hencodes with
      | fields tail hfits hmessage =>
        simp only [Record.fields, Chunk.fields, List.length_append]
        omega
    exact hbody.trans (Nat.le_add_left _ _)

theorem shown_skipped (h : ∀ e ∈ es, e.piece.record? = none) :
    es.flatMap Entry.shown = [] ∧ ∀ e ∈ es, e.Closed := by
  refine ⟨List.flatMap_eq_nil_iff.mpr fun e he => ?_, fun e he chunk hchunk => ?_⟩
  · unfold Entry.shown
    rw [h e he]
    rfl
  · rw [h e he] at hchunk
    cases hchunk

/-- **A call between the records of a file.** -/
theorem called_inFile {passed : List Entry} {consumed : Bytes} (hpart : appended <+: file)
    (hfits : s.recordReader.Fits) (hwithin : s.recordReader.buffer.length ≤ appended.length)
    (hfile : file = consumed ++ (bytesOf (es.map Entry.piece) ++ MAGIC))
    (happended : appended = consumed ++ s.recordReader.unread)
    (hrecords : F.records = returned ++ es.flatMap Entry.shown) (hmagic : s.readHeaderMagic = true)
    (hchunk : s.chunkReader = none) (hentries : F.entries = passed ++ es)
    (hclosed : ∀ e ∈ passed, e.Closed) :
    Called F appended returned (nextInFile repair handlers s) := by
  have hunread : s.recordReader.unread <+: bytesOf (es.map Entry.piece) ++ MAGIC := by
    rw [hfile, happended] at hpart
    exact (List.prefix_append_right_inj consumed).mp hpart
  have hvalid : ∀ e ∈ es, e.Valid := fun e he => F.valid e (hentries ▸ List.mem_append_right _ he)
  have hlength := hfits.length_eq
  have hsize := F.size
  have hfileLength := congrArg List.length hfile
  have happendedLength := congrArg List.length happended
  rw [List.length_append] at hfileLength happendedLength
  have hpiecesValid : ∀ p ∈ es.map Entry.piece, p.Valid := by
    intro p hp
    obtain ⟨e, he, rfl⟩ := List.mem_map.mp hp
    exact (hvalid e he).piece
  have hout := nextRecord_outcome repair (show MAGIC.length ≤ 9 by decide) hpiecesValid hunread hfits
    (by omega)
  have hbuffer := nextRecord_buffer repair s.recordReader
  unfold nextInFile
  generalize s.recordReader.nextRecord repair = out at hout hbuffer
  cases hout with
  | @record skipped record body pieces' r' hpieces hskipped hread hfits' =>
    obtain ⟨before, behind, rfl, rfl, hbehind⟩ := List.map_eq_append_iff.mp hpieces
    obtain ⟨e, after, rfl, hpiece, rfl⟩ := List.map_eq_cons_iff.mp hbehind
    have hbefore : ∀ e ∈ before, e.piece.record? = none := fun e he =>
      hskipped _ (List.mem_map_of_mem he)
    obtain ⟨hshown, hbeforeClosed⟩ := shown_skipped hbefore
    have hpassed : ∀ e ∈ passed ++ before, e.Closed := by
      intro e' he'
      rcases List.mem_append.mp he' with he' | he'
      · exact hclosed e' he'
      · exact hbeforeClosed e' he'
    have hrecord? : e.piece.record? = some record := by rw [hpiece]; rfl
    have hrecords' : F.records = returned ++ (e.shown ++ after.flatMap Entry.shown) := by
      rw [hrecords, List.flatMap_append, hshown, List.nil_append, List.flatMap_cons]
    have hfile' : file = (consumed ++ (bytesOf (before.map Entry.piece) ++ e.piece.bytes)) ++
        (bytesOf (after.map Entry.piece) ++ MAGIC) := by
      rw [hfile, List.map_append, bytesOf_append, List.map_cons, bytesOf_cons]
      simp only [List.append_assoc]
    have happended' : appended = (consumed ++ (bytesOf (before.map Entry.piece) ++ e.piece.bytes)) ++
        r'.unread := by
      rw [happended, hread, hpiece]
      simp only [List.append_assoc]
    have hwithin' : r'.buffer.length ≤ appended.length := by
      rw [show r'.buffer = s.recordReader.buffer from hbuffer]
      exact hwithin
    have hentries' : F.entries = (passed ++ before) ++ e :: after := by
      rw [hentries, List.append_assoc]
    dsimp only
    by_cases hchunkRecord : ∃ chunk, record = .chunk chunk
    · obtain ⟨chunk, rfl⟩ := hchunkRecord
      have hevalid := hvalid e (List.mem_append_right _ List.mem_cons_self)
      have hinner := length_inner hevalid hrecord?
      have hpieceLength := congrArg List.length happended'
      simp only [List.length_append] at hpieceLength
      dsimp only
      rw [decompress_chunk handlers hevalid hrecord?]
      have hshownChunk : e.shown = e.inner.filterMap Piece.record? := by
        unfold Entry.shown
        rw [hrecord?]
      refine called_inChunk (s := { s with recordReader := r' }) hfits' hwithin' hfile' happended'
        (by rw [hrecords', hshownChunk]) hmagic hentries' hpassed hrecord?
        (show e.inner = [] ++ e.inner from rfl) (fun _ => rfl)
        ⟨rfl, fits_new _, fun p hp => (hevalid.inner chunk hrecord? p hp).1, ?_⟩
      have hpartLength := hpart.length_le
      show (bytesOf e.inner).length + 9 ≤ intMax
      omega
    · have hshownRecord : e.shown = [record] := by
        unfold Entry.shown
        rw [hrecord?]
        cases record with
        | chunk chunk => exact absurd ⟨chunk, rfl⟩ hchunkRecord
        | _ => rfl
      have hcalled : Called F appended returned
          (.ok (some record), { s with recordReader := r' }) := by
        have hentries'' : F.entries = ((passed ++ before) ++ [e]) ++ after := by
          rw [hentries']
          simp only [List.append_assoc, List.singleton_append]
        refine .record ⟨hfits', hwithin', _, _, _, hfile', happended', ?_,
          .between hmagic hchunk hentries'' ?_⟩
        · rw [hrecords', hshownRecord, List.append_assoc]
        · intro e' he'
          rcases List.mem_append.mp he' with he' | he'
          · exact hpassed e' he'
          · cases List.mem_singleton.mp he'
            intro chunk hrec
            rw [hrecord?] at hrec
            cases hrec
            exact absurd ⟨chunk, rfl⟩ hchunkRecord
      cases record with
      | chunk chunk => exact absurd ⟨chunk, rfl⟩ hchunkRecord
      | _ => exact hcalled
  | @none skipped pieces' r' hpieces hskipped hread hfits' hwhole =>
    obtain ⟨before, after, rfl, rfl, rfl⟩ := List.map_eq_append_iff.mp hpieces
    have hbefore : ∀ e ∈ before, e.piece.record? = none := fun e he =>
      hskipped _ (List.mem_map_of_mem he)
    obtain ⟨hshown, hbeforeClosed⟩ := shown_skipped hbefore
    have hpassed : ∀ e ∈ passed ++ before, e.Closed := by
      intro e' he'
      rcases List.mem_append.mp he' with he' | he'
      · exact hclosed e' he'
      · exact hbeforeClosed e' he'
    have hentries' : F.entries = (passed ++ before) ++ after := by rw [hentries, List.append_assoc]
    have hrecords' : F.records = returned ++ after.flatMap Entry.shown := by
      rw [hrecords, List.flatMap_append, hshown, List.nil_append]
    refine .none ⟨hfits', ?_, consumed ++ bytesOf (before.map Entry.piece), _, _, ?_, ?_, hrecords',
      .between hmagic hchunk hentries' hpassed⟩ ?_
    · show r'.buffer.length ≤ _
      rw [show r'.buffer = s.recordReader.buffer from hbuffer]
      exact hwithin
    · rw [hfile, List.map_append, bytesOf_append]
      simp only [List.append_assoc]
    · rw [happended, hread, List.append_assoc]
    · intro heq
      have hall : s.recordReader.unread = bytesOf (List.map Entry.piece (before ++ after)) ++ MAGIC := by
        rw [happended, hfile] at heq
        exact List.append_cancel_left heq
      have hshort := hwhole hall
      have hrest : r'.unread = bytesOf (after.map Entry.piece) ++ MAGIC := by
        rw [hall, List.map_append, bytesOf_append, List.append_assoc] at hread
        exact (List.append_cancel_left hread).symm
      have hnil : after = [] := by
        cases after with
        | nil => rfl
        | cons e after =>
          rw [hrest, List.map_cons, bytesOf_cons] at hshort
          have hmagicLength : MAGIC.length = 8 := rfl
          simp only [List.length_append, length_bytes, hmagicLength] at hshort
          omega
      subst hnil
      refine ⟨by rw [hrecords', List.flatMap_nil, List.append_nil], ?_⟩
      unfold ValidFile.ChunksClosed
      rw [hentries', List.append_nil]
      exact hpassed

theorem readMagic_spec {r : RecordReader} {bytes : Bytes} (h : r.unread <+: MAGIC ++ bytes)
    (hfits : r.Fits) (hmax : r.offset + (MAGIC ++ bytes).length + 9 ≤ intMax) :
    (r.readMagic = (.ok false, r) ∧ r.unread.length ≤ 8) ∨
      ∃ r', r.readMagic = (.ok true, r') ∧ r'.Fits ∧ r'.buffer = r.buffer ∧
        r.unread = MAGIC ++ r'.unread := by
  have hlength := hfits.length_eq
  have hmagicLength : MAGIC.length = 8 := rfl
  rw [List.length_append, hmagicLength] at hmax
  unfold RecordReader.readMagic
  rw [plus_ok (by omega)]
  dsimp only
  by_cases hlong : r.offset + 8 < r.buffer.length
  · right
    obtain ⟨more, hmore⟩ := List.prefix_of_prefix_length_le (List.prefix_append MAGIC bytes) h
      (by rw [hmagicLength]; omega)
    have htake : (r.buffer.drop r.offset).take 8 = MAGIC := by
      show r.unread.take 8 = MAGIC
      rw [← hmore, ← hmagicLength, List.take_left]
    rw [if_pos hlong, htake, if_neg (fun hne => hne rfl)]
    refine ⟨_, rfl, hlong.le, rfl, ?_⟩
    have hdrop : (RecordReader.mk r.buffer (r.offset + 8)).unread = r.unread.drop 8 :=
      List.drop_drop.symm
    rw [hdrop, ← hmore, ← hmagicLength, List.drop_left]
  · rw [if_neg hlong]
    exact .inl ⟨rfl, by omega⟩

/-- **A call of `nextRecord`.** -/
theorem Reading.nextRecord (repair : Bytes → String) (handlers : DecompressHandlers)
    (h : Reading F appended returned s) (hpart : appended <+: file) :
    Called F appended returned (s.nextRecord repair handlers) := by
  obtain ⟨consumed, rest, records, hfile, happended, hrecords, hat⟩ := h.ahead
  unfold MCAPStreamedReader.nextRecord
  cases hat with
  | between hmagic hchunk hentries hclosed =>
    rw [if_pos hmagic]
    unfold nextBehindMagic
    rw [hchunk]
    exact called_inFile hpart h.fits h.within hfile happended hrecords hmagic hchunk hentries hclosed
  | inChunk hmagic hchunk hentries hclosed hpiece hinner hne hin =>
    rw [if_pos hmagic]
    unfold nextBehindMagic
    rw [hchunk]
    exact called_inChunk h.fits h.within hfile happended hrecords hmagic hentries hclosed hpiece hinner
      (fun hnil => absurd hnil hne) hin
  | magic hmagic hchunk =>
    have hnil : consumed = [] := by
      have hlength := congrArg List.length hfile
      rw [List.length_append] at hlength
      exact List.length_eq_zero_iff.mp (by omega)
    subst hnil
    rw [List.nil_append] at happended
    have hunread : s.recordReader.unread <+:
        MAGIC ++ (bytesOf (F.entries.map Entry.piece) ++ MAGIC) := by
      rw [← happended, ← F.file_eq]
      exact hpart
    have hsize := F.size
    have hfileLength := congrArg List.length F.file_eq
    have hlength := h.fits.length_eq
    have hwithin := h.within
    rw [happended] at hwithin
    have hmagicCall := readMagic_spec hunread h.fits (by rw [← hfileLength]; omega)
    rw [if_neg (by rw [hmagic]; exact Bool.false_ne_true)]
    rcases hmagicCall with ⟨hcall, hshort⟩ | ⟨r', hcall, hfits', hbuffer, hread⟩
    · rw [hcall]
      dsimp only
      refine .none ⟨h.fits, h.within, [], file, F.records, rfl, happended, hrecords,
        .magic hmagic hchunk⟩ ?_
      intro heq
      have hmagicLength : MAGIC.length = 8 := rfl
      have hall := congrArg List.length heq
      rw [happended, hfileLength] at hall
      simp only [List.length_append, hmagicLength] at hall
      omega
    · rw [hcall]
      dsimp only
      unfold nextBehindMagic
      dsimp only
      rw [hchunk]
      have hwithin' : r'.buffer.length ≤ appended.length := by
        rw [hbuffer]
        exact h.within
      exact called_inFile
        (s := { s with recordReader := r', chunkReader := none, readHeaderMagic := true }) hpart hfits' hwithin' F.file_eq (by rw [happended, hread]) hrecords rfl rfl
        (show F.entries = [] ++ F.entries from rfl) (fun e he => absurd he List.not_mem_nil)

/-! ## Runs -/

theorem run_next_record {record : Option Record} {s' : MCAPStreamedReader} (ops : List Op)
    (h : s.nextRecord repair handlers = (.ok record, s')) :
    run repair handlers (.nextRecord :: ops) s =
      (run repair handlers ops s').bind fun x => .ok (record.toList ++ x.1, x.2) := by
  rw [run, h]
  rfl

theorem run_next_throws {e : MCAPReadError} {s' : MCAPStreamedReader} (ops : List Op)
    (h : s.nextRecord repair handlers = (.err e, s')) :
    run repair handlers (.nextRecord :: ops) s = .err e := by
  rw [run, h]

/-- **Any calls**, as far as none of them throws. -/
theorem run_reads (repair : Bytes → String) (handlers : DecompressHandlers) {ops : List Op}
    (h : Reading F appended returned s)
    (hpart : appended ++ appendedOf ops <+: file) :
    (∃ more s', run repair handlers ops s = .ok (more, s') ∧
      Reading F (appended ++ appendedOf ops) (returned ++ more) s') ∨
    ∃ e, run repair handlers ops s = .err e ∧ ¬ F.ChunksClosed := by
  induction ops generalizing appended returned s with
  | nil => exact .inl ⟨[], s, rfl, by rwa [appendedOf, List.append_nil, List.append_nil]⟩
  | cons op ops ih =>
    cases op with
    | append data =>
      rw [appendedOf, ← List.append_assoc] at hpart ⊢
      exact ih (h.append data) hpart
    | nextRecord =>
      have hcall := h.nextRecord repair handlers
        ((List.prefix_append _ _).trans hpart)
      generalize hout : s.nextRecord repair handlers = out at hcall
      cases hcall with
      | throws hopen => exact .inr ⟨_, run_next_throws ops hout, hopen⟩
      | @record record s' h' =>
        rw [run_next_record ops hout]
        rcases ih h' hpart with ⟨more, s'', hmore, h''⟩ | ⟨e, he, hopen⟩
        · rw [hmore]
          exact .inl ⟨record :: more, s'', rfl, by rwa [List.append_assoc] at h''⟩
        · rw [he]
          exact .inr ⟨e, rfl, hopen⟩
      | @none s' h' hwhole =>
        rw [run_next_record ops hout]
        rcases ih h' hpart with ⟨more, s'', hmore, h''⟩ | ⟨e, he, hopen⟩
        · rw [hmore]
          exact .inl ⟨more, s'', rfl, h''⟩
        · rw [he]
          exact .inr ⟨e, rfl, hopen⟩

theorem Reading.returned_prefix (h : Reading F appended returned s) : returned <+: F.records := by
  obtain ⟨consumed, rest, records, -, -, hrecords, -⟩ := h.ahead
  exact hrecords ▸ List.prefix_append _ _

/-- **Calls of `nextRecord` when the file is there**: each returns a record, until all of them have been
returned. -/
theorem run_drain (repair : Bytes → String) (handlers : DecompressHandlers) (k : Nat)
    (h : Reading F file returned s) :
    (∃ more s', run repair handlers (List.replicate k .nextRecord) s = .ok (more, s') ∧
      returned ++ more <+: F.records ∧
      (more.length = k ∨ returned ++ more = F.records ∧ F.ChunksClosed)) ∨
    ∃ e, run repair handlers (List.replicate k .nextRecord) s = .err e ∧ ¬ F.ChunksClosed := by
  induction k generalizing returned s with
  | zero => exact .inl ⟨[], s, rfl, by rw [List.append_nil]; exact h.returned_prefix, .inl rfl⟩
  | succ k ih =>
    have hcall := h.nextRecord repair handlers (List.prefix_refl file)
    rw [List.replicate_succ]
    generalize hout : s.nextRecord repair handlers = out at hcall
    cases hcall with
    | throws hopen => exact .inr ⟨_, run_next_throws _ hout, hopen⟩
    | @record record s' h' =>
      rw [run_next_record _ hout]
      rcases ih h' with ⟨more, s'', hmore, hprefix', hdone⟩ | ⟨e, he, hopen⟩
      · rw [hmore]
        rw [List.append_assoc] at hprefix' hdone
        exact .inl ⟨record :: more, s'', rfl, hprefix',
          hdone.imp_left fun hlength => congrArg (· + 1) hlength⟩
      · rw [he]
        exact .inr ⟨e, rfl, hopen⟩
    | @none s' h' hwhole =>
      obtain ⟨hall, hclosed⟩ := hwhole rfl
      rw [run_next_record _ hout]
      rcases ih h' with ⟨more, s'', hmore, hprefix', -⟩ | ⟨e, he, hopen⟩
      · rw [hmore]
        refine .inl ⟨more, s'', rfl, hprefix', .inr ⟨?_, hclosed⟩⟩
        refine hprefix'.eq_of_length (le_antisymm hprefix'.length_le ?_)
        rw [← hall, List.length_append]
        exact Nat.le_add_right _ _
      · exact absurd hclosed hopen

theorem run_append (ops ops' : List Op) (s : MCAPStreamedReader) :
    run repair handlers (ops ++ ops') s =
      (run repair handlers ops s).bind fun x =>
        (run repair handlers ops' x.2).bind fun y => .ok (x.1 ++ y.1, y.2) := by
  induction ops generalizing s with
  | nil =>
    show run repair handlers ops' s = (run repair handlers ops' s).bind _
    cases run repair handlers ops' s <;> rfl
  | cons op ops ih =>
    cases op with
    | append data => exact ih (s.append data)
    | nextRecord =>
      rw [List.cons_append]
      rcases hcall : s.nextRecord repair handlers with ⟨record | e | _, s'⟩
      · rw [run_next_record _ hcall, run_next_record _ hcall, ih]
        cases run repair handlers ops s' with
        | ok x =>
          show ((run repair handlers ops' x.2).bind _).bind _ = (run repair handlers ops' x.2).bind _
          cases run repair handlers ops' x.2 with
          | ok y =>
            show Res.ok _ = Res.ok _
            rw [List.append_assoc]
          | err e => rfl
          | panic => rfl
        | err e => rfl
        | panic => rfl
      · rw [run_next_throws _ hcall, run_next_throws _ hcall]
        rfl
      · rw [run, run, hcall]
        rfl

/-- **When the streamed reader is exact**: whatever calls there are that append a part of a valid file,
none of them throws, the records that they return are the first of the file, and when the file is
there, further calls return those that are left, if and only if every chunk of the file ends with a
record of a known opcode. -/
theorem streamed_exact_iff (repair : Bytes → String) (handlers : DecompressHandlers)
    (F : ValidFile file) :
    (∀ ops, appendedOf ops <+: file → ∃ returned s, run repair handlers ops .new = .ok (returned, s) ∧
      returned <+: F.records ∧
      (appendedOf ops = file → ∀ k, F.records.length ≤ k → ∃ s',
        run repair handlers (ops ++ List.replicate k .nextRecord) .new = .ok (F.records, s'))) ↔
    F.ChunksClosed := by
  constructor
  · intro hexact
    obtain ⟨returned, s, hrun, -, hmore⟩ := hexact [.append file]
      ⟨[], by simp [appendedOf]⟩
    obtain ⟨s', hall⟩ := hmore (List.append_nil file) (F.records.length + 1) (Nat.le_succ _)
    have happended : Reading F file [] (MCAPStreamedReader.new.append file) :=
      (reading_new F).append file
    rcases run_drain repair handlers (F.records.length + 1) happended with
      ⟨more, s'', hdrain, -, hlength | ⟨-, hclosed⟩⟩ | ⟨e, he, -⟩
    · have heq : run repair handlers (List.replicate (F.records.length + 1) .nextRecord)
          (MCAPStreamedReader.new.append file) = .ok (F.records, s') := hall
      rw [hdrain] at heq
      cases heq
      exact absurd hlength (Nat.ne_of_lt (Nat.lt_succ_self _))
    · exact hclosed
    · have heq : run repair handlers (List.replicate (F.records.length + 1) .nextRecord)
          (MCAPStreamedReader.new.append file) = .ok (F.records, s') := hall
      rw [he] at heq
      cases heq
  · intro hclosed ops hpart
    rcases run_reads repair handlers (reading_new F)
      (by rwa [List.nil_append]) with ⟨returned, s, hrun, hreading⟩ | ⟨e, he, hopen⟩
    · rw [List.nil_append, List.nil_append] at hreading
      refine ⟨returned, s, hrun, hreading.returned_prefix, ?_⟩
      intro heq k hk
      rw [heq] at hreading
      rcases run_drain repair handlers k hreading with
        ⟨more, s', hdrain, hprefix', hdone⟩ | ⟨e, he, hopen⟩
      · refine ⟨s', ?_⟩
        rw [run_append, hrun]
        show (run repair handlers (List.replicate k .nextRecord) s).bind _ = _
        rw [hdrain]
        have hall : returned ++ more = F.records := by
          rcases hdone with hlength | ⟨hall, -⟩
          · refine hprefix'.eq_of_length (le_antisymm hprefix'.length_le ?_)
            rw [List.length_append, hlength]
            omega
          · exact hall
        exact congrArg (fun l => Res.ok (l, s')) hall
      · exact absurd hclosed hopen
    · exact absurd hclosed hopen

end

/-! ## A chunk that ends with a record of an unknown opcode -/

theorem encodes_fields {r : Record} (h : r.Fits) : Encodes r r.fields := by
  have hencodes : Encodes r (r.fields ++ []) := .fields [] h fun _ _ => rfl
  rwa [List.append_nil] at hencodes

/-- A message, and a record of a private opcode. -/
def oddInner : List Piece :=
  [.known (.message ⟨0, 0, 5, 5, [7]⟩) (Message.fields ⟨0, 0, 5, 5, [7]⟩), .unknown 0x80 [1]]

/-- A chunk of them, with CRC 0. -/
def oddChunk : Chunk := ⟨5, 5, 42, 0, "", bytesOf oddInner⟩

def oddFile : Bytes :=
  MAGIC ++ (bytesOf [.known (.chunk oddChunk) oddChunk.fields] ++ MAGIC)

theorem stringFits_empty : StringFits "" := by decide

def oddValid : ValidFile oddFile where
  entries := [⟨.known (.chunk oddChunk) oddChunk.fields, oddInner⟩]
  file_eq := rfl
  valid e he := by
    cases List.mem_singleton.mp he
    refine ⟨encodes_fields stringFits_empty, ?_, ?_, ?_, ?_⟩
    · rintro chunk ⟨⟩
      rfl
    · rintro chunk ⟨⟩
      exact .inl rfl
    · rintro chunk ⟨⟩
      rfl
    · rintro chunk ⟨⟩ p hp
      rcases List.mem_cons.mp hp with rfl | hp
      · exact ⟨encodes_fields (r := .message _) trivial, fun nested h => by cases h⟩
      · cases List.mem_singleton.mp hp
        exact ⟨rfl, fun nested h => by cases h⟩
  size := by decide

/-- **The second call throws**: behind the message there is a record of an unknown opcode, and then
nothing. -/
theorem streamed_throws :
    Nonempty (ValidFile oddFile) ∧
    run (fun _ => "") (fun _ => none) [.append oddFile, .nextRecord, .nextRecord] .new =
      .err (.extraneousDataInChunk 0) :=
  ⟨⟨oddValid⟩, by rfl⟩

end Swift
end Mcap

import Mcap.PyBoundaries

/-! # Files of records with bytes behind their fields

A file is a list of pieces between magic bytes.  A piece that is whole is read as its record, and the
loop of the stream reader goes on behind it (`turn_frame`), so that a file is read piece by piece
(`records_fileOf`).  Bytes behind the fields of a piece are skipped, whatever the type of the record;
only a message has no such bytes.
-/
namespace Mcap
namespace Py

open StreamReader (lift skipPadding)

/-! ## Extra bytes -/

/-- Opcodes of records that may have bytes behind their fields: all but messages. -/
def Extensible (opcode : UInt8) : Prop :=
  opcode ∈ [op.HEADER, op.FOOTER, op.SCHEMA, op.CHANNEL, op.CHUNK, op.MESSAGE_INDEX, op.CHUNK_INDEX,
    op.ATTACHMENT, op.ATTACHMENT_INDEX, op.STATISTICS, op.METADATA, op.METADATA_INDEX,
    op.SUMMARY_OFFSET, op.DATA_END]

instance (opcode : UInt8) : Decidable (Extensible opcode) := inferInstanceAs (Decidable (_ ∈ _))

theorem readRecord_length {stream : ReadMethod} {opcode : UInt8} (h : Extensible opcode)
    (n m : Nat) : readRecord stream opcode n = readRecord stream opcode m := by
  have hne : opcode ≠ op.MESSAGE := by
    rintro rfl
    exact absurd h (by decide)
  unfold readRecord
  refine ite_congr rfl (fun _ => rfl) fun hatt => ?_
  refine ite_congr rfl (fun _ => rfl) fun hattIndex => ?_
  refine ite_congr rfl (fun _ => rfl) fun hchannel => ?_
  refine ite_congr rfl (fun _ => rfl) fun hchunk => ?_
  refine ite_congr rfl (fun _ => rfl) fun hchunkIndex => ?_
  refine ite_congr rfl (fun _ => rfl) fun hdataEnd => ?_
  refine ite_congr rfl (fun _ => rfl) fun hfooter => ?_
  refine ite_congr rfl (fun _ => rfl) fun hheader => ?_
  refine ite_congr rfl (fun hmessage => absurd hmessage hne) fun _ => ?_
  refine ite_congr rfl (fun _ => rfl) fun hindex => ?_
  refine ite_congr rfl (fun _ => rfl) fun hmetadata => ?_
  refine ite_congr rfl (fun _ => rfl) fun hmetadataIndex => ?_
  refine ite_congr rfl (fun _ => rfl) fun hschema => ?_
  refine ite_congr rfl (fun _ => rfl) fun hstatistics => ?_
  refine ite_congr rfl (fun _ => rfl) fun hoffset => ?_
  unfold Extensible at h
  simp only [List.mem_cons, List.not_mem_nil, or_false] at h
  rcases h with h | h | h | h | h | h | h | h | h | h | h | h | h | h
  · exact absurd h hheader
  · exact absurd h hfooter
  · exact absurd h hschema
  · exact absurd h hchannel
  · exact absurd h hchunk
  · exact absurd h hindex
  · exact absurd h hchunkIndex
  · exact absurd h hatt
  · exact absurd h hattIndex
  · exact absurd h hstatistics
  · exact absurd h hmetadata
  · exact absurd h hmetadataIndex
  · exact absurd h hoffset
  · exact absurd h hdataEnd

/-- **Bytes behind the fields do not change a record.** -/
theorem recordOf_append {opcode : UInt8} {fields : Bytes} {record : Option McapRecord}
    (h : recordOf opcode fields = .ok record) (hopcode : Extensible opcode) (extra : Bytes) :
    recordOf opcode (fields ++ extra) = .ok record := by
  obtain ⟨c, hread⟩ := recordOf_eq_ok h
  obtain ⟨-, -, hmore⟩ := follows_readRecord extends_exactly opcode fields.length _ _ _ hread
  have hextra := hmore extra 0
  unfold recordOf
  rw [readRecord_length hopcode _ fields.length]
  change readRecord exactly opcode fields.length ⟨fields ++ extra, 0⟩ = _ at hextra
  show (readRecord exactly opcode fields.length ⟨fields ++ extra, 0⟩).map Prod.fst = _
  rw [hextra]
  rfl

theorem reads_read (data : Bytes) (h : data.length ≤ sysMaxsize) :
    Reads (ReadDataStream.read data.length) data data := by
  intro rest pos
  have hread := read_of_le (c := ⟨data ++ rest, pos⟩) (Int.natCast_nonneg data.length) h (by simp)
  simpa using hread

theorem reads_unpack {w n : Nat} (hmax : w ≤ sysMaxsize) (h : n < 256 ^ w) :
    Reads (ReadDataStream.read w >>= unpack w) (le w n) n := by
  have hread : Reads (ReadDataStream.read w) (le w n) (le w n) := by
    have h' := reads_read (le w n) (by rwa [length_le])
    rwa [length_le] at h'
  have hunpack : unpack w (le w n) = pure n := by
    unfold unpack
    rw [if_pos (length_le w n), ofLe_le_of_lt h]
  have hbind := hread.bind (f := unpack w) (hunpack ▸ Reads.pure n)
  rwa [List.append_nil] at hbind

theorem reads_readOpcode (opcode : UInt8) :
    Reads (readOpcode ReadDataStream.read) [opcode] opcode := by
  have h := (reads_unpack (by decide) (show opcode.toNat < 256 ^ 1 from opcode.toNat_lt)).bind_pure
    UInt8.ofNat
  rw [UInt8.ofNat_toNat] at h
  have hle : le 1 opcode.toNat = [opcode] := by
    show [UInt8.ofNat opcode.toNat] = [opcode]
    rw [UInt8.ofNat_toNat]
  rwa [hle] at h

theorem reads_readHeader {r : StreamReader} (opcode : UInt8) {n : Nat} (hn : n < 256 ^ 8)
    (hlimit : ∀ limit, r.recordSizeLimit = some limit → n ≤ limit) :
    Reads (r.readHeader ReadDataStream.read) (opcode :: le 8 n) (opcode, n) := by
  rw [← List.append_nil (le 8 n)]
  refine (reads_readOpcode opcode).bind ((reads_unpack (by decide) hn).bind ?_)
  cases hr : r.recordSizeLimit with
  | none => exact Reads.pure _
  | some limit =>
    simp only [if_neg (Nat.not_lt.mpr (hlimit limit hr))]
    exact Reads.pure _

section
variable {r : StreamReader} {D : Decompressors}

/-- **A turn at a record that is whole**: the rest of the stream is behind its body. -/
theorem turn_frame {opcode : UInt8} {body input : Bytes} {record : Option McapRecord}
    (hread : recordOf opcode body = .ok record) (hmax : body.length ≤ sysMaxsize)
    (hlimit : ∀ limit, r.recordSizeLimit = some limit → body.length ≤ limit) (pos : Nat)
    (hcheck : r.checkDataEnd (crc32 (input.take pos)).toNat record = .ok ()) (rest : Bytes) :
    r.turn D input ⟨frame opcode body ++ rest, pos⟩ =
      (r.deliver (fun chunk => breakupChunk D chunk r.validateCrcs) record).map fun x =>
        (x, ⟨rest, pos + (frame opcode body).length⟩) := by
  have hn : body.length < 256 ^ 8 := hmax.trans_lt (by decide)
  have hheader := reads_readHeader (r := r) opcode hn hlimit (body ++ rest) pos
  have hcursor : (⟨opcode :: le 8 body.length ++ (body ++ rest), pos⟩ : Cursor) =
      ⟨frame opcode body ++ rest, pos⟩ := by
    unfold frame
    simp
  obtain ⟨c₁, hc₁⟩ : ∃ c₁ : Cursor,
      ⟨body ++ rest, pos + (opcode :: le 8 body.length).length⟩ = c₁ := ⟨_, rfl⟩
  rw [hc₁, hcursor] at hheader
  have htake : c₁.rest.take body.length = body := by
    rw [← hc₁]
    exact List.take_left
  have hpadded := (readPadded_of_fits (c := c₁) hmax (by rw [← hc₁]; simp)
    (show recordOf opcode _ = _ by rw [htake]; exact hread)).1
  have hend : (⟨c₁.rest.drop body.length, c₁.pos + body.length⟩ : Cursor) =
      ⟨rest, pos + (frame opcode body).length⟩ := by
    rw [← hc₁]
    simp only [List.drop_left, length_frame, List.length_cons, length_le]
    congr 1
    omega
  rw [hend, readPadded_run] at hpadded
  have hrun : r.turn D input ⟨frame opcode body ++ rest, pos⟩ =
      (r.readHeader ReadDataStream.read ⟨frame opcode body ++ rest, pos⟩).bind fun x =>
        (readRecord ReadDataStream.read x.1.1 x.1.2 x.2).bind fun y =>
          (lift (r.checkDataEnd (crc32 (input.take pos)).toNat y.1) y.2).bind fun z =>
            (skipPadding ReadDataStream.read x.2.pos x.1.2 z.2).bind fun w =>
              lift (r.deliver (fun chunk => breakupChunk D chunk r.validateCrcs) y.1) w.2 := rfl
  obtain ⟨⟨record', c₂⟩, hrecord, hpadded⟩ := Mcap.bind_eq_ok hpadded
  obtain ⟨⟨_, c₃⟩, hskip, hpadded⟩ := Mcap.bind_eq_ok hpadded
  cases hpadded
  rw [hrun, hheader]
  show (readRecord ReadDataStream.read opcode body.length c₁).bind _ = _
  rw [hrecord]
  show (lift (r.checkDataEnd _ record') c₂).bind _ = _
  rw [hcheck]
  show (skipPadding ReadDataStream.read c₁.pos body.length c₂).bind _ = _
  rw [hskip]
  rfl

end

/-- What is delivered for records, one after the other, up to a footer. -/
def delivered (r : StreamReader) (D : Decompressors) : List (Option McapRecord) → Yields
  | [] => ([], none)
  | record :: rest =>
      match r.deliver (fun chunk => breakupChunk D chunk r.validateCrcs) record with
      | .error e => ([], some e)
      | .ok (records, true) => (records, none)
      | .ok (records, false) =>
          let (more, e) := delivered r D rest
          (records ++ more, e)

/-- A record in a file: its opcode, its body and what is read from it. -/
structure Piece where
  opcode : UInt8
  body : Bytes
  record : Option McapRecord
deriving DecidableEq

/-- The opcode and the body. -/
def Piece.framed (p : Piece) : UInt8 × Bytes := (p.opcode, p.body)

/-- A piece that a reader admits. -/
structure Piece.Whole (r : StreamReader) (p : Piece) : Prop where
  read : recordOf p.opcode p.body = .ok p.record
  size : p.body.length ≤ sysMaxsize
  limit : ∀ limit, r.recordSizeLimit = some limit → p.body.length ≤ limit

/-- A piece that is no footer. -/
def Piece.Inner (p : Piece) : Prop := ∀ footer, p.record ≠ some (.footer footer)

section
variable {r : StreamReader} {D : Decompressors} {input : Bytes}

theorem readMagic_magic (pos : Nat) (rest : Bytes) :
    readMagic ReadDataStream.read ⟨MAGIC ++ rest, pos⟩ = .ok ((), ⟨rest, pos + 8⟩) := by
  have hread := reads_read MAGIC (by decide) rest pos
  unfold readMagic
  rw [run_bind]
  change (ReadDataStream.read 8 ⟨MAGIC ++ rest, pos⟩).bind _ = _
  rw [show ReadDataStream.read 8 ⟨MAGIC ++ rest, pos⟩ = _ from hread]
  rfl

theorem deliver_inner {record : Option McapRecord} {records : List McapRecord} {last : Bool}
    (hinner : ∀ footer, record ≠ some (.footer footer))
    (h : r.deliver (fun chunk => breakupChunk D chunk r.validateCrcs) record = .ok (records, last)) :
    last = false := by
  rcases record with _ | record
  · cases h
    rfl
  · cases record with
    | chunk chunk =>
      change (if r.emitChunks then _ else _ : Except PyError (List McapRecord × Bool)) = _ at h
      split at h
      · cases h
        rfl
      · obtain ⟨found, -, h⟩ := Mcap.bind_eq_ok h
        cases h
        rfl
    | footer footer => exact absurd rfl (hinner footer)
    | _ =>
      cases h
      rfl

/-- **The loop over pieces**, the last of which is a footer. -/
theorem loop_pieces {pieces : List Piece} {last : Piece} {footer : Footer}
    (hwhole : ∀ p ∈ pieces, p.Whole r) (hinner : ∀ p ∈ pieces, p.Inner) (hlast : last.Whole r)
    (hfooter : last.record = some (.footer footer)) {fuel : Nat} (pos : Nat) (hfuel : pieces.length < fuel)
    (hcheck : ∀ front p back, pieces = front ++ p :: back →
      r.checkDataEnd (crc32 (input.take (pos + (frames (front.map Piece.framed)).length))).toNat
        p.record = .ok ()) :
    StreamReader.loop (r.turn D input) (readMagic ReadDataStream.read) fuel
        ⟨frames (pieces.map Piece.framed) ++ (frame last.opcode last.body ++ MAGIC), pos⟩ =
      delivered r D (pieces.map Piece.record ++ [last.record]) := by
  induction pieces generalizing fuel pos with
  | nil =>
    obtain _ | fuel := fuel
    · omega
    · have hturn := turn_frame (D := D) hlast.read hlast.size hlast.limit pos
        (show r.checkDataEnd (crc32 (input.take pos)).toNat _ = _ by rw [hfooter]; rfl) MAGIC
      obtain ⟨pos', hpos'⟩ : ∃ pos', pos + (frame last.opcode last.body).length = pos' := ⟨_, rfl⟩
      rw [hpos', hfooter] at hturn
      have hmagic := readMagic_magic pos' []
      rw [List.append_nil] at hmagic
      rw [List.map_nil, frames_nil, List.nil_append, List.map_nil, List.nil_append, hfooter]
      unfold StreamReader.loop
      rw [hturn]
      simp only [StreamReader.deliver, hmagic]
      rfl
  | cons p pieces ih =>
    obtain _ | fuel := fuel
    · omega
    · have hp := hwhole p List.mem_cons_self
      have hturn := turn_frame (D := D) hp.read hp.size hp.limit pos
        (show r.checkDataEnd (crc32 (input.take pos)).toNat _ = _ by
          simpa using hcheck [] p pieces rfl)
        (frames (pieces.map Piece.framed) ++ (frame last.opcode last.body ++ MAGIC))
      have hrest := ih (fun q hq => hwhole q (List.mem_cons_of_mem _ hq))
        (fun q hq => hinner q (List.mem_cons_of_mem _ hq))
        (pos + (frame p.opcode p.body).length) ((by simpa using hfuel) : pieces.length < fuel)
        (fun front q back heq => by
          have h := hcheck (p :: front) q back (by rw [heq]; rfl)
          rwa [List.map_cons, show p.framed = (p.opcode, p.body) from rfl, frames_cons,
            List.length_append, ← Nat.add_assoc] at h)
      rw [List.map_cons, show p.framed = (p.opcode, p.body) from rfl, frames_cons,
        List.append_assoc]
      unfold StreamReader.loop
      rw [hturn, List.map_cons, List.cons_append]
      unfold delivered
      rcases hdeliver : r.deliver (fun chunk => breakupChunk D chunk r.validateCrcs) p.record with
        e | ⟨records, again⟩
      · rfl
      · obtain rfl := deliver_inner (hinner p List.mem_cons_self) hdeliver
        show (let (more, e) := StreamReader.loop _ _ fuel _; (records ++ more, e)) = _
        rw [hrest]

/-- A file of pieces. -/
def fileOf (r : StreamReader) (pieces : List Piece) : Bytes :=
  (if r.skipMagic then [] else MAGIC) ++ (frames (pieces.map Piece.framed) ++ MAGIC)

theorem length_le_frames_pieces (pieces : List Piece) :
    pieces.length ≤ (frames (pieces.map Piece.framed)).length := by
  induction pieces with
  | nil => exact Nat.zero_le _
  | cons p pieces ih =>
    rw [List.map_cons, show p.framed = (p.opcode, p.body) from rfl, frames_cons,
      List.length_append, length_frame, List.length_cons]
    omega

/-- **A file of pieces is read piece by piece.** -/
theorem records_fileOf {pieces : List Piece} {last : Piece} {footer : Footer}
    (hwhole : ∀ p ∈ pieces, p.Whole r) (hinner : ∀ p ∈ pieces, p.Inner) (hlast : last.Whole r)
    (hfooter : last.record = some (.footer footer))
    (hcheck : ∀ front p back, pieces = front ++ p :: back → r.skipMagic = false →
      r.checkDataEnd (crc32 (MAGIC ++ frames (front.map Piece.framed))).toNat p.record = .ok ()) :
    r.records D (fileOf r (pieces ++ [last])) =
      delivered r D (pieces.map Piece.record ++ [last.record]) := by
  have hframes : frames ((pieces ++ [last]).map Piece.framed) ++ MAGIC =
      frames (pieces.map Piece.framed) ++ (frame last.opcode last.body ++ MAGIC) := by
    rw [List.map_append, frames_append, List.append_assoc]
    show _ ++ ((frame last.opcode last.body ++ []) ++ MAGIC) = _
    rw [List.append_nil]
  have hlength := length_le_frames_pieces pieces
  unfold StreamReader.records StreamReader.run fileOf
  rw [hframes]
  cases hskip : r.skipMagic with
  | true =>
    rw [if_pos rfl, if_pos rfl, List.nil_append]
    refine loop_pieces hwhole hinner hlast hfooter _ ?_ fun front p back _ => ?_
    · rw [List.length_append]
      omega
    · unfold StreamReader.checkDataEnd
      split
      · exact if_neg fun h => by rw [hskip] at h; cases h.2.1
      · rfl
  | false =>
    rw [if_neg Bool.false_ne_true, if_neg Bool.false_ne_true]
    rw [show Cursor.new (MAGIC ++ (frames (pieces.map Piece.framed) ++
      (frame last.opcode last.body ++ MAGIC))) = ⟨MAGIC ++ _, 0⟩ from rfl, readMagic_magic]
    refine loop_pieces hwhole hinner hlast hfooter _ ?_ fun front p back heq => ?_
    · rw [List.length_append, List.length_append]
      omega
    · have h := hcheck front p back heq hskip
      rw [← List.append_assoc, heq, List.map_append, frames_append, ← List.append_assoc,
        ← List.append_assoc]
      rw [show 0 + 8 + (frames (front.map Piece.framed)).length =
        (MAGIC ++ frames (front.map Piece.framed)).length by
          rw [List.length_append, MAGIC_length], List.append_assoc, List.append_assoc,
        List.take_left' rfl]
      exact h

end

/-! ## The boundaries of records -/

/-- A piece with bytes behind its body. -/
def Piece.pad (p : Piece × Bytes) : Piece := { p.1 with body := p.1.body ++ p.2 }

/-- **Pieces with bytes behind their fields** that a reader admits: the last one is a footer, and the
checksum of the data section is not validated, or is 0. -/
structure Admitted (r : StreamReader) (pieces : List (Piece × Bytes)) : Prop where
  read : ∀ p ∈ pieces, recordOf p.1.opcode p.1.body = .ok p.1.record
  extra : ∀ p ∈ pieces, p.2 = [] ∨ Extensible p.1.opcode
  size : ∀ p ∈ pieces, (p.1.body ++ p.2).length ≤ sysMaxsize
  limit : ∀ p ∈ pieces, ∀ limit, r.recordSizeLimit = some limit → (p.1.body ++ p.2).length ≤ limit
  checksum : r.validateCrcs = true → r.skipMagic = false → ∀ p ∈ pieces, ∀ dataEnd,
    p.1.record = some (.dataEnd dataEnd) → dataEnd.dataSectionCrc = 0
  footer : ∃ front last footer, pieces = front ++ [last] ∧ (∀ p ∈ front, p.1.Inner) ∧
    last.1.record = some (.footer footer)

section
variable {r : StreamReader} {D : Decompressors} {pieces : List (Piece × Bytes)} {p : Piece × Bytes}

theorem Admitted.whole_pad (h : Admitted r pieces) (hp : p ∈ pieces) :
    (Piece.pad p).Whole r where
  read := by
    rcases h.extra p hp with hnil | hopcode
    · show recordOf p.1.opcode (p.1.body ++ p.2) = _
      rw [hnil, List.append_nil]
      exact h.read p hp
    · exact recordOf_append (h.read p hp) hopcode p.2
  size := h.size p hp
  limit := h.limit p hp

theorem Admitted.whole_fst (h : Admitted r pieces) (hp : p ∈ pieces) :
    p.1.Whole r where
  read := h.read p hp
  size := by
    have hsize := h.size p hp
    rw [List.length_append] at hsize
    omega
  limit limit hlimit := by
    have hle := h.limit p hp limit hlimit
    rw [List.length_append] at hle
    omega

theorem Admitted.check (h : Admitted r pieces) (hp : p ∈ pieces)
    (checksum : Nat) : r.checkDataEnd checksum p.1.record = .ok () := by
  rcases hrecord : p.1.record with _ | record
  · rfl
  · cases record with
    | dataEnd dataEnd =>
      exact if_neg fun hcheck => hcheck.2.2.1 (h.checksum hcheck.1 hcheck.2.1 p hp dataEnd hrecord)
    | _ => rfl

theorem Admitted.records (h : Admitted r pieces) {f : Piece × Bytes → Piece}
    (hrecord : ∀ p, (f p).record = p.1.record) (hwhole : ∀ p ∈ pieces, (f p).Whole r) :
    r.records D (fileOf r (pieces.map f)) = delivered r D (pieces.map fun p => p.1.record) := by
  obtain ⟨front, last, footer, rfl, hinner, hfooter⟩ := h.footer
  have hmem : ∀ p ∈ front, p ∈ front ++ [last] := fun p hp => List.mem_append_left _ hp
  have hlast : last ∈ front ++ [last] := List.mem_append_right _ (List.mem_singleton_self last)
  have hread := records_fileOf (r := r) (D := D)
    (fun p (hp : p ∈ front.map f) => by
      obtain ⟨q, hq, rfl⟩ := List.mem_map.mp hp
      exact hwhole q (hmem q hq))
    (fun p hp => by
      obtain ⟨q, hq, rfl⟩ := List.mem_map.mp hp
      intro footer'
      rw [hrecord]
      exact hinner q hq footer')
    (hwhole last hlast) (by rw [hrecord, hfooter])
    (fun front' p back heq _ => by
      have hp : p ∈ front.map f := heq ▸ List.mem_append_right _ List.mem_cons_self
      obtain ⟨q, hq, rfl⟩ := List.mem_map.mp hp
      rw [hrecord]
      exact h.check (hmem q hq) _)
  rw [List.map_append, List.map_append, List.map_cons, List.map_cons, List.map_nil, List.map_nil,
    hread, List.map_map, hrecord]
  congr 2
  exact List.map_congr_left fun p _ => hrecord p

end

/-- **The reader and the boundaries of records.**  Record by record, it does what a reader of the
record's own bytes does if and only if the record is kept; so it does on an input of which all
records are kept; and bytes behind the fields of records outside of chunks change nothing. -/
theorem reader_keeps_boundaries (r : StreamReader) (D : Decompressors) :
    (∀ opcode length c,
      Same (readPadded opcode length c) (readExactly opcode length c) ↔ Kept opcode length c) ∧
    (∀ opcode length c,
      Same (readChunkRecord ReadDataStream.read opcode length c) (readChunkExactly opcode length c) ↔
        KeptChunk opcode length c) ∧
    (∀ input, Bounded r D input → Agree (r.records D input) (exactRecords r D input)) ∧
    ∀ pieces, Admitted r pieces →
      r.records D (fileOf r (pieces.map Piece.pad)) = r.records D (fileOf r (pieces.map Prod.fst)) := by
  refine ⟨fun _ _ _ => same_readPadded_iff, fun _ _ _ => same_readChunkRecord_iff,
    fun _ h => agree_records h, fun pieces h => ?_⟩
  exact (h.records (f := Piece.pad) (fun _ => rfl) fun p hp => h.whole_pad hp).trans
    (h.records (f := Prod.fst) (fun _ => rfl) fun p hp => h.whole_fst hp).symm

/-- A reader of records without magic bytes. -/
def plainReader : StreamReader where
  skipMagic := true
  emitChunks := false
  validateCrcs := false
  recordSizeLimit := none

/-- No compression package is installed. -/
def noDecompressors : Decompressors := ⟨none, none⟩

/-- A data end record and a footer, with a byte behind the fields of each. -/
def paddedPieces : List (Piece × Bytes) :=
  [(⟨op.DATA_END, [0, 0, 0, 0], some (.dataEnd ⟨0⟩)⟩, [1]),
    (⟨op.FOOTER, List.replicate 20 0, some (.footer ⟨0, 0, 0⟩)⟩, [2])]

theorem admitted_paddedPieces : Admitted plainReader paddedPieces where
  read := by
    intro p hp
    rcases List.mem_cons.mp hp with rfl | hp
    · rfl
    · rw [List.mem_singleton.mp hp]
      rfl
  extra := by decide
  size := by decide
  limit _ _ _ hlimit := by cases hlimit
  checksum hvalidate := by cases hvalidate
  footer := ⟨[_], _, ⟨0, 0, 0⟩, rfl, fun p hp => by
    rw [List.mem_singleton.mp hp]
    rintro footer ⟨⟩, rfl⟩

/-- The bytes of these pieces. -/
def paddedFile : Bytes := fileOf plainReader (paddedPieces.map Piece.pad)

/-- Where the footer of the file begins. -/
def footerCursor : Cursor := ⟨paddedFile.drop 14, 14⟩

theorem inFile_paddedFile {c : Cursor} (h : InFile plainReader noDecompressors paddedFile c) :
    c = .new paddedFile ∨ c = footerCursor := by
  induction h with
  | start => exact .inl rfl
  | turn _ hturn ih =>
    rcases ih with rfl | rfl
    · cases hturn
      exact .inr rfl
    · cases hturn

theorem bounded_paddedFile : Bounded plainReader noDecompressors paddedFile where
  record := by
    intro c hc opcode length c₁ hheader
    rcases inFile_paddedFile hc with rfl | rfl
    · cases hheader
      exact .inl ⟨by decide, by decide, _, rfl⟩
    · cases hheader
      exact .inl ⟨by decide, by decide, _, rfl⟩
  chunk := by
    intro _ c hc opcode length c₁ chunk c₂ hheader hrecord
    rcases inFile_paddedFile hc with rfl | rfl
    · cases hheader
      cases hrecord
    · cases hheader
      cases hrecord

/-- The reader at such a file. -/
theorem reader_keeps_paddedFile :
    Agree (plainReader.records noDecompressors paddedFile)
        (exactRecords plainReader noDecompressors paddedFile) ∧
      plainReader.records noDecompressors paddedFile =
        plainReader.records noDecompressors (fileOf plainReader (paddedPieces.map Prod.fst)) := by
  obtain ⟨-, -, hagree, hpadded⟩ := reader_keeps_boundaries plainReader noDecompressors
  exact ⟨hagree _ bounded_paddedFile, hpadded _ admitted_paddedPieces⟩

/-- A schema record without names and data, and one with a byte behind its fields. -/
def schemaFrame (extra : Bytes) : Bytes := frame op.SCHEMA (List.replicate 14 0 ++ extra)

/-- **Boundaries that are crossed**: a byte behind the fields of a record of a chunk makes reading
fail, and a record whose length is 0 takes the bytes behind it. -/
theorem boundaries_crossed :
    breakup (schemaFrame []) = .ok [.schema ⟨0, [], "", ""⟩] ∧
    breakup (schemaFrame [0]) = .error .endOfFile ∧
    plainReader.records noDecompressors ([op.DATA_END] ++ le 8 0 ++ [1, 2, 3, 4]) =
      ([.dataEnd ⟨67305985⟩], some .endOfFile) ∧
    recordOf op.DATA_END [] = .error .endOfFile := by
  refine ⟨?_, ?_, ?_, ?_⟩
  · rfl
  · rfl
  · rfl
  · rfl

end Py
end Mcap

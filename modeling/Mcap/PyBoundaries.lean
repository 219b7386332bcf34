import Mcap.PyExact

/-! # The Python stream reader and the boundaries of records

An exact reader takes the body of a record first, and reads the record from it (`readExactly`); it
refuses a body that is cut off, and fields that do not fit.  The library's reader reads on in the
stream, and skips what is left of a record only outside of chunks.

Record by record the two agree if and only if the record is kept (`same_readPadded_iff`,
`same_readChunkRecord_iff`): it is whole and holds its fields, and in a chunk nothing else, or it
cannot be read from the bytes behind it either.  If this is so for all records that the exact reader
comes to, then the readers agree on the whole input (`records_agree`).
-/
namespace Mcap
namespace Py

open StreamReader (lift skipPadding)

/-! ## The exact reader -/

/-- The record of a body. -/
def recordOf (opcode : UInt8) (body : Bytes) : Except PyError (Option McapRecord) :=
  (readRecord exactly opcode body.length (.new body)).map Prod.fst

/-- The record of a body in a chunk. -/
def chunkRecordOf (opcode : UInt8) (body : Bytes) : Except PyError (Option McapRecord) :=
  (readChunkRecord exactly opcode body.length (.new body)).map Prod.fst

/-- A record is read from its own body. -/
def readExactly (opcode : UInt8) (length : Nat) : Read PyError (Option McapRecord) := do
  let body ← exactly length
  lift (recordOf opcode body)

/-- A record of a chunk is read from its own body. -/
def readChunkExactly (opcode : UInt8) (length : Nat) : Read PyError (Option McapRecord) := do
  let body ← exactly length
  lift (chunkRecordOf opcode body)

/-- A record as the library reads it: what is left of its length is skipped. -/
def readPadded (opcode : UInt8) (length : Nat) : Read PyError (Option McapRecord) := do
  let c ← get
  let record ← readRecord ReadDataStream.read opcode length
  skipPadding ReadDataStream.read c.pos length
  pure record

/-- A turn in a chunk. -/
def exactBreakupTurn (records : List McapRecord) : Read PyError (List McapRecord) := do
  let opcode ← readOpcode exactly
  let length ← read8 exactly
  let record ← readChunkExactly opcode length
  pure (records ++ record.toList)

/-- The records in the data of a chunk. -/
def exactBreakup (data : Bytes) : Except PyError (List McapRecord) := do
  let (records, _) ← readFold data.length exactBreakupTurn (data.length + 1) [] (.new data)
  pure records

/-- The records of a chunk. -/
def exactBreakupChunk (D : Decompressors) (chunk : Chunk) (validateCrc : Bool) :
    Except PyError (List McapRecord) := do
  let data ← getChunkData D chunk validateCrc
  exactBreakup data

/-- A turn of the exact reader. -/
def exactTurn (r : StreamReader) (D : Decompressors) (input : Bytes) :
    Read PyError (List McapRecord × Bool) := do
  let start ← get
  let (opcode, length) ← r.readHeader exactly
  let record ← readExactly opcode length
  lift (r.checkDataEnd (crc32 (input.take start.pos)).toNat record)
  lift (r.deliver (fun chunk => exactBreakupChunk D chunk r.validateCrcs) record)

/-- The exact reader. -/
def exactRecords (r : StreamReader) (D : Decompressors) (input : Bytes) : Yields :=
  r.run (exactTurn r D input) (readMagic exactly) input

/-! ## One record -/

/-- **A record that holds its fields**: its body is whole, and the record can be read from it. -/
def Fits (opcode : UInt8) (length : Nat) (c : Cursor) : Prop :=
  length ≤ sysMaxsize ∧ length ≤ c.rest.length ∧
    ∃ record, recordOf opcode (c.rest.take length) = .ok record

/-- The fields can be read, and nothing is left to be skipped behind them. -/
def CutOff (opcode : UInt8) (length : Nat) (c : Cursor) : Prop :=
  ∃ record c', readRecord ReadDataStream.read opcode length c = .ok (record, c') ∧
    c'.pos < c.pos + length ∧ (c'.rest = [] ∨ c'.pos + sysMaxsize < c.pos + length)

/-- **A record that keeps to its body**, or cannot be read. -/
def Kept (opcode : UInt8) (length : Nat) (c : Cursor) : Prop :=
  Fits opcode length c ∨ (∃ e, readRecord ReadDataStream.read opcode length c = .error e) ∨
    CutOff opcode length c

/-- A record of a chunk that holds its fields and nothing else. -/
def FitsChunk (opcode : UInt8) (length : Nat) (c : Cursor) : Prop :=
  length ≤ sysMaxsize ∧ length ≤ c.rest.length ∧
    ∃ record pos, readChunkRecord exactly opcode length (.new (c.rest.take length)) =
      .ok (record, ⟨[], pos⟩)

/-- **A record of a chunk that keeps to its body**, or cannot be read. -/
def KeptChunk (opcode : UInt8) (length : Nat) (c : Cursor) : Prop :=
  FitsChunk opcode length c ∨ ∃ e, readChunkRecord ReadDataStream.read opcode length c = .error e

section
variable {opcode : UInt8} {length : Nat} {c : Cursor} {record : Option McapRecord}

theorem length_body (hle : length ≤ c.rest.length) : (c.rest.take length).length = length := by
  rw [List.length_take]
  omega

theorem follows_body {p q : Read PyError (Option McapRecord)} {c' : Cursor} (hfollows : Follows p q 0)
    (hle : length ≤ c.rest.length) (h : p (.new (c.rest.take length)) = .ok (record, c')) :
    c'.pos + c'.rest.length = length ∧
      q c = .ok (record, ⟨c'.rest ++ c.rest.drop length, c.pos + c'.pos⟩) := by
  obtain ⟨-, hlen, hmore⟩ := hfollows _ _ _ h
  have hq := hmore (c.rest.drop length) c.pos
  rw [show (Cursor.new (c.rest.take length)).rest = c.rest.take length from rfl,
    List.take_append_drop] at hq
  refine ⟨?_, hq⟩
  have hbody := length_body hle
  change c'.pos + c'.rest.length = 0 + (c.rest.take length).length at hlen
  omega

theorem exactly_of_fits (hmax : length ≤ sysMaxsize) (hle : length ≤ c.rest.length) :
    exactly length c = .ok (c.rest.take length, ⟨c.rest.drop length, c.pos + length⟩) :=
  exactly_of_le (Int.natCast_nonneg length) hmax hle

theorem recordOf_eq_ok {body : Bytes} (h : recordOf opcode body = .ok record) :
    ∃ c', readRecord exactly opcode body.length (.new body) = .ok (record, c') := by
  unfold recordOf at h
  rcases hread : readRecord exactly opcode body.length (.new body) with e | ⟨record', c'⟩
  · rw [hread] at h
    cases h
  · rw [hread] at h
    cases h
    exact ⟨c', rfl⟩

theorem skipPadding_of_whole {left rest : Bytes} {count pos : Nat} (hmax : length ≤ sysMaxsize)
    (hlen : pos + left.length = count + length) (hpos : count ≤ pos) :
    skipPadding ReadDataStream.read count length ⟨left ++ rest, pos⟩ =
      .ok ((), ⟨rest, count + length⟩) := by
  have hrun : skipPadding ReadDataStream.read count length ⟨left ++ rest, pos⟩ =
      (if 0 < (length : Int) - ((pos : Int) - count) then
        (do let _ ← ReadDataStream.read ((length : Int) - ((pos : Int) - count)); pure () :
          Read PyError Unit)
      else pure ()) ⟨left ++ rest, pos⟩ := rfl
  have hpadding : (length : Int) - ((pos : Int) - count) = (left.length : Int) := by omega
  rw [hrun, hpadding]
  by_cases hnil : left = []
  · subst hnil
    rw [if_neg (by decide)]
    have hend : pos = count + length := by simpa using hlen
    rw [hend]
    rfl
  · have hlt : 0 < left.length := List.length_pos_iff.mpr hnil
    have hleft : left.length ≤ sysMaxsize := by omega
    have hread : ReadDataStream.read left.length ⟨left ++ rest, pos⟩ =
        .ok (left, ⟨rest, pos + left.length⟩) := by
      have h := read_of_le (c := ⟨left ++ rest, pos⟩) (Int.natCast_nonneg left.length) hleft
        (by simp)
      simpa using h
    rw [if_pos (by omega), run_bind, hread, hlen]
    rfl

theorem skipPadding_eq_error {count : Nat} {c : Cursor} {e : PyError}
    (h : skipPadding ReadDataStream.read count length c = .error e) :
    c.pos < count + length ∧ (c.rest = [] ∨ c.pos + sysMaxsize < count + length) := by
  have hrun : skipPadding ReadDataStream.read count length c =
      (if 0 < (length : Int) - ((c.pos : Int) - count) then
        (do let _ ← ReadDataStream.read ((length : Int) - ((c.pos : Int) - count)); pure () :
          Read PyError Unit)
      else pure ()) c := rfl
  rw [hrun] at h
  split at h
  · rename_i hpos
    refine ⟨by omega, ?_⟩
    rw [run_bind] at h
    unfold ReadDataStream.read at h
    rw [if_neg (by omega)] at h
    by_cases hover : sysMaxsize < ((length : Int) - ((c.pos : Int) - count)).toNat
    · exact .inr (by omega)
    · rw [if_neg hover] at h
      simp only at h
      rw [if_neg (show ¬ (length : Int) - ((c.pos : Int) - count) < 0 by omega)] at h
      split at h
      · rename_i hnil
        rcases List.take_eq_nil_iff.mp hnil with hzero | hnil
        · omega
        · exact .inl hnil
      · cases h
  · cases h

theorem skipPadding_cutOff {count : Nat} {c : Cursor} (hlt : c.pos < count + length)
    (h : c.rest = [] ∨ c.pos + sysMaxsize < count + length) :
    ∃ e, skipPadding ReadDataStream.read count length c = .error e := by
  have hrun : skipPadding ReadDataStream.read count length c =
      (if 0 < (length : Int) - ((c.pos : Int) - count) then
        (do let _ ← ReadDataStream.read ((length : Int) - ((c.pos : Int) - count)); pure () :
          Read PyError Unit)
      else pure ()) c := rfl
  rw [hrun, if_pos (by omega), run_bind]
  unfold ReadDataStream.read
  rw [if_neg (by omega)]
  by_cases hover : sysMaxsize < ((length : Int) - ((c.pos : Int) - count)).toNat
  · rw [if_pos hover]
    exact ⟨_, rfl⟩
  · rw [if_neg hover]
    have hnil : c.rest = [] := h.resolve_right (by omega)
    simp only [hnil, List.take_nil, ite_self]
    exact ⟨_, rfl⟩

theorem readPadded_run (c : Cursor) : readPadded opcode length c =
    (readRecord ReadDataStream.read opcode length c).bind fun x =>
      (skipPadding ReadDataStream.read c.pos length x.2).bind fun y => .ok (x.1, y.2) := rfl

theorem readPadded_of_fits (hmax : length ≤ sysMaxsize) (hle : length ≤ c.rest.length)
    (h : recordOf opcode (c.rest.take length) = .ok record) :
    readPadded opcode length c = .ok (record, ⟨c.rest.drop length, c.pos + length⟩) ∧
      readExactly opcode length c = .ok (record, ⟨c.rest.drop length, c.pos + length⟩) := by
  obtain ⟨c', hread⟩ := recordOf_eq_ok h
  rw [length_body hle] at hread
  obtain ⟨hlen, hq⟩ := follows_body (follows_readRecord extends_read opcode length) hle hread
  constructor
  · rw [readPadded_run, hq]
    show Except.bind (skipPadding _ _ _ _) _ = _
    rw [skipPadding_of_whole hmax (by omega) (Nat.le_add_right _ _)]
    rfl
  · unfold readExactly
    rw [run_bind, exactly_of_fits hmax hle]
    show (recordOf opcode _).map _ = _
    rw [h]
    rfl

theorem readExactly_eq_error (h : ¬ Fits opcode length c) :
    ∃ e, readExactly opcode length c = .error e := by
  unfold readExactly
  rw [run_bind]
  rcases hbody : exactly length c with e | ⟨body, c'⟩
  · exact ⟨e, rfl⟩
  · obtain ⟨-, hmax, hle, rfl, rfl⟩ := exactly_eq_ok hbody
    rcases hrecord : recordOf opcode (c.rest.take length) with e | record
    · refine ⟨e, ?_⟩
      show (recordOf opcode (c.rest.take length)).map _ = _
      rw [hrecord]
      rfl
    · exact absurd ⟨hmax, hle, record, hrecord⟩ h

/-- **Where the library reads a record as the exact reader does.** -/
theorem same_readPadded_iff :
    Same (readPadded opcode length c) (readExactly opcode length c) ↔ Kept opcode length c := by
  by_cases hfits : Fits opcode length c
  · obtain ⟨hmax, hle, record, hrecord⟩ := hfits
    obtain ⟨hpadded, hexact⟩ := readPadded_of_fits hmax hle hrecord
    rw [hpadded, hexact]
    exact ⟨fun _ => .inl ⟨hmax, hle, record, hrecord⟩, fun _ => rfl⟩
  · obtain ⟨e, hexact⟩ := readExactly_eq_error hfits
    rw [hexact, readPadded_run]
    rcases hread : readRecord ReadDataStream.read opcode length c with e' | ⟨record, c'⟩
    · exact ⟨fun _ => .inr (.inl ⟨e', hread⟩), fun _ => rfl⟩
    · constructor
      · intro hsame
        rcases hskip : skipPadding ReadDataStream.read c.pos length c' with e' | ⟨_, c''⟩
        · exact .inr (.inr ⟨record, c', hread, skipPadding_eq_error hskip⟩)
        · change Same ((skipPadding _ _ _ _).bind _) _ at hsame
          rw [hskip] at hsame
          cases hsame
      · rintro (hfits' | ⟨e', herr⟩ | ⟨record', c₁, hread', hlt, hend⟩)
        · exact absurd hfits' hfits
        · rw [hread] at herr
          cases herr
        · rw [hread] at hread'
          cases hread'
          obtain ⟨e', hskip⟩ := skipPadding_cutOff hlt hend
          show Same ((skipPadding _ _ _ _).bind _) _
          rw [hskip]
          rfl

theorem readChunkRecord_of_whole {pos : Nat} {left : Bytes} (hle : length ≤ c.rest.length)
    (h : readChunkRecord exactly opcode length (.new (c.rest.take length)) =
      .ok (record, ⟨left, pos⟩)) :
    pos + left.length = length ∧ readChunkRecord ReadDataStream.read opcode length c =
      .ok (record, ⟨left ++ c.rest.drop length, c.pos + pos⟩) :=
  follows_body (follows_readChunkRecord extends_read opcode length) hle h

theorem readChunkExactly_run (hmax : length ≤ sysMaxsize) (hle : length ≤ c.rest.length) :
    readChunkExactly opcode length c =
      (readChunkRecord exactly opcode length (.new (c.rest.take length))).bind fun x =>
        .ok (x.1, ⟨c.rest.drop length, c.pos + length⟩) := by
  unfold readChunkExactly
  rw [run_bind, exactly_of_fits hmax hle]
  show (chunkRecordOf opcode (c.rest.take length)).map _ = _
  unfold chunkRecordOf
  rw [length_body hle]
  rcases readChunkRecord exactly opcode length (.new (c.rest.take length)) with e | ⟨record, c'⟩
  · rfl
  · rfl

theorem readChunkExactly_eq_error (opcode : UInt8)
    (h : ¬ (length ≤ sysMaxsize ∧ length ≤ c.rest.length)) :
    ∃ e, readChunkExactly opcode length c = .error e := by
  unfold readChunkExactly
  rw [run_bind]
  rcases hbody : exactly length c with e | ⟨body, c'⟩
  · exact ⟨e, rfl⟩
  · obtain ⟨-, hmax, hle, -⟩ := exactly_eq_ok hbody
    exact absurd ⟨hmax, hle⟩ h

theorem fitsChunk_run (h : FitsChunk opcode length c) : ∃ record,
    readChunkRecord ReadDataStream.read opcode length c =
        .ok (record, ⟨c.rest.drop length, c.pos + length⟩) ∧
      readChunkExactly opcode length c = .ok (record, ⟨c.rest.drop length, c.pos + length⟩) := by
  obtain ⟨hmax, hle, record, pos, hread⟩ := h
  obtain ⟨hlen, hlibrary⟩ := readChunkRecord_of_whole hle hread
  obtain rfl : pos = length := by simpa using hlen
  refine ⟨record, hlibrary, ?_⟩
  rw [readChunkExactly_run hmax hle, hread]
  rfl

/-- **Where the library reads a record of a chunk as the exact reader does.** -/
theorem same_readChunkRecord_iff :
    Same (readChunkRecord ReadDataStream.read opcode length c) (readChunkExactly opcode length c) ↔
      KeptChunk opcode length c := by
  constructor
  · intro hsame
    rcases hlibrary : readChunkRecord ReadDataStream.read opcode length c with e | ⟨record, c₁⟩
    · exact .inr ⟨e, hlibrary⟩
    · rw [hlibrary] at hsame
      have hexact := hsame.symm.eq_ok rfl
      by_cases hwhole : length ≤ sysMaxsize ∧ length ≤ c.rest.length
      · obtain ⟨hmax, hle⟩ := hwhole
        rw [readChunkExactly_run hmax hle] at hexact
        rcases hread : readChunkRecord exactly opcode length (.new (c.rest.take length)) with
          e | ⟨record', ⟨left, pos⟩⟩
        · rw [hread] at hexact
          cases hexact
        · obtain ⟨hlen, hlibrary'⟩ := readChunkRecord_of_whole hle hread
          rw [hread] at hexact
          cases hexact
          -- the positions behind the record differ by what is left of its body
          have hpos : c.pos + length = c.pos + pos :=
            congrArg (fun x => (x.toOption.map fun y => y.2.pos).getD 0)
              (hlibrary.symm.trans hlibrary')
          have hnil : left = [] := List.eq_nil_of_length_eq_zero (by omega)
          exact .inl ⟨hmax, hle, _, pos, hnil ▸ hread⟩
      · obtain ⟨e, herr⟩ := readChunkExactly_eq_error opcode hwhole
        rw [herr] at hexact
        cases hexact
  · rintro (hfits | ⟨e, hlibrary⟩)
    · obtain ⟨record, hlibrary, hexact⟩ := fitsChunk_run hfits
      rw [hlibrary, hexact]
      rfl
    · rw [hlibrary]
      rcases hexact : readChunkExactly opcode length c with e' | ⟨record, c₁⟩
      · rfl
      · -- what the exact reader reads, the library reads as well
        by_cases hwhole : length ≤ sysMaxsize ∧ length ≤ c.rest.length
        · obtain ⟨hmax, hle⟩ := hwhole
          rw [readChunkExactly_run hmax hle] at hexact
          rcases hread : readChunkRecord exactly opcode length (.new (c.rest.take length)) with
            e' | ⟨record', ⟨left, pos⟩⟩
          · rw [hread] at hexact
            cases hexact
          · rw [(readChunkRecord_of_whole hle hread).2] at hlibrary
            cases hlibrary
        · obtain ⟨e', herr⟩ := readChunkExactly_eq_error opcode hwhole
          rw [herr] at hexact
          cases hexact

end

/-! ## Headers -/

variable {c : Cursor}

theorem read_short {w : Nat} (hmax : w ≤ sysMaxsize) (h : c.rest.length < w) :
    (∃ e, ReadDataStream.read w c = .error e) ∨
      ∃ c', ReadDataStream.read w c = .ok (c.rest, c') := by
  have hint : ((w : Int)).toNat = w := Int.toNat_natCast w
  unfold ReadDataStream.read
  rw [if_neg (by omega), hint, if_neg (by omega)]
  simp only
  rw [if_neg (show ¬ (w : Int) < 0 by omega), List.take_of_length_le (by omega)]
  split
  · exact .inl ⟨_, rfl⟩
  · exact .inr ⟨_, rfl⟩

theorem exactly_short {w : Nat} (h : c.rest.length < w) :
    ∃ e, exactly w c = .error e := by
  have hint : ((w : Int)).toNat = w := Int.toNat_natCast w
  unfold exactly readExact
  rw [hint]
  split
  · exact ⟨_, rfl⟩
  · exact ⟨_, rfl⟩

theorem same_checked {α : Type} {w : Nat} (hmax : w ≤ sysMaxsize) {f : Bytes → Read PyError α}
    (hf : ∀ data c, data.length < w → ∃ e, f data c = .error e) (c : Cursor) :
    Same ((ReadDataStream.read w >>= f) c) ((exactly w >>= f) c) := by
  have hint : ((w : Int)).toNat = w := Int.toNat_natCast w
  rw [run_bind, run_bind]
  by_cases hle : w ≤ c.rest.length
  · rw [read_of_le (Int.natCast_nonneg w) (hint ▸ hmax) (hint ▸ hle),
      exactly_of_le (Int.natCast_nonneg w) (hint ▸ hmax) (hint ▸ hle)]
    rfl
  · obtain ⟨e, hexact⟩ := exactly_short (Nat.lt_of_not_le hle)
    rw [hexact]
    rcases read_short hmax (Nat.lt_of_not_le hle) with ⟨e', hread⟩ | ⟨c', hread⟩
    · rw [hread]
      rfl
    · obtain ⟨e', hfail⟩ := hf c.rest c' (Nat.lt_of_not_le hle)
      rw [hread]
      show Same (f c.rest c') _
      rw [hfail]
      rfl

theorem same_unpack (w : Nat) (hmax : w ≤ sysMaxsize) (c : Cursor) :
    Same ((ReadDataStream.read w >>= unpack w) c) ((exactly w >>= unpack w) c) := by
  refine same_checked hmax (fun data c h => ⟨.structError, ?_⟩) c
  unfold unpack
  rw [if_neg (Nat.ne_of_lt h)]
  rfl

theorem same_run_bind {α β : Type} {p q : Read PyError α} {f g : α → Read PyError β}
    (h : Same (p c) (q c)) (hf : ∀ a c', q c = .ok (a, c') → Same (f a c') (g a c')) :
    Same ((p >>= f) c) ((q >>= g) c) :=
  same_bind h fun x hx => hf x.1 x.2 hx

theorem same_readOpcode (c : Cursor) :
    Same (readOpcode ReadDataStream.read c) (readOpcode exactly c) :=
  same_run_bind (same_unpack 1 (by decide) c) fun _ _ _ => rfl

theorem same_read8 (c : Cursor) : Same (read8 ReadDataStream.read c) (read8 exactly c) :=
  same_unpack 8 (by decide) c

theorem same_readHeader (r : StreamReader) (c : Cursor) :
    Same (r.readHeader ReadDataStream.read c) (r.readHeader exactly c) :=
  same_run_bind (same_readOpcode c) fun _ c' _ =>
    same_run_bind (same_read8 c') fun _ _ _ => rfl

theorem same_readMagic (c : Cursor) :
    Same (readMagic ReadDataStream.read c) (readMagic exactly c) := by
  refine same_checked (w := 8) (by decide) (fun data c h => ⟨.structError, ?_⟩) c
  show (if data.length ≠ 8 then throw .structError else _ : Read PyError Unit) c = _
  rw [if_pos (Nat.ne_of_lt h)]
  rfl

/-! ## The data of a chunk -/

/-- Where the exact reader comes to in the data of a chunk. -/
inductive InChunk (data : Bytes) : Cursor → Prop
  | start : InChunk data (.new data)
  | turn {c c' : Cursor} {records : List McapRecord} (h : InChunk data c)
      (hturn : exactBreakupTurn [] c = .ok (records, c')) : InChunk data c'

/-- **All records of a chunk are kept.** -/
def BoundedChunk (data : Bytes) : Prop :=
  ∀ c, InChunk data c → ∀ opcode length c₁ c₂, readOpcode exactly c = .ok (opcode, c₁) →
    read8 exactly c₁ = .ok (length, c₂) → KeptChunk opcode length c₂

theorem exactBreakupTurn_run (records : List McapRecord) (c : Cursor) :
    exactBreakupTurn records c = (exactBreakupTurn [] c).map fun x => (records ++ x.1, x.2) := by
  unfold exactBreakupTurn
  rw [run_bind, run_bind]
  rcases readOpcode exactly c with e | ⟨opcode, c₁⟩
  · rfl
  · show ((read8 exactly c₁).bind _) = Except.map _ ((read8 exactly c₁).bind _)
    rcases read8 exactly c₁ with e | ⟨length, c₂⟩
    · rfl
    · show ((readChunkExactly opcode length c₂).bind _) =
        Except.map _ ((readChunkExactly opcode length c₂).bind _)
      rcases readChunkExactly opcode length c₂ with e | ⟨record, c₃⟩
      · rfl
      · rfl

theorem same_breakupTurn {records : List McapRecord}
    (h : ∀ opcode length c₁ c₂, readOpcode exactly c = .ok (opcode, c₁) →
      read8 exactly c₁ = .ok (length, c₂) → KeptChunk opcode length c₂) :
    Same (breakupTurn ReadDataStream.read records c) (exactBreakupTurn records c) := by
  refine same_run_bind (same_readOpcode c) fun opcode c₁ hopcode => ?_
  refine same_run_bind (same_read8 c₁) fun length c₂ hlength => ?_
  refine same_run_bind ?_ fun record c₃ _ => rfl
  exact same_readChunkRecord_iff.mpr (h opcode length c₁ c₂ hopcode hlength)

theorem same_breakup {data : Bytes} (h : BoundedChunk data) :
    Same (breakup data) (exactBreakup data) := by
  have hloop : ∀ fuel records c, InChunk data c →
      Same (readFold data.length (breakupTurn ReadDataStream.read) fuel records c)
        (readFold data.length exactBreakupTurn fuel records c) := by
    intro fuel
    induction fuel with
    | zero => exact fun _ _ _ => rfl
    | succ fuel ih =>
      intro records c hc
      unfold readFold
      split
      · refine same_run_bind (same_breakupTurn (h c hc)) fun records' c' hturn => ?_
        refine ih records' c' ?_
        rw [exactBreakupTurn_run] at hturn
        obtain ⟨⟨found, c₁⟩, hfirst, hturn⟩ := bind_eq_ok hturn
        cases hturn
        exact .turn hc hfirst
      · rfl
  exact same_bind (hloop _ _ _ .start) fun _ _ => rfl

theorem same_breakupChunk {D : Decompressors} {chunk : Chunk} {validateCrc : Bool}
    (h : ∀ data, getChunkData D chunk validateCrc = .ok data → BoundedChunk data) :
    Same (breakupChunk D chunk validateCrc) (exactBreakupChunk D chunk validateCrc) :=
  same_bind (x := getChunkData D chunk validateCrc) rfl fun data hdata => same_breakup (h data hdata)

/-! ## The whole input -/

section
variable {r : StreamReader} {D : Decompressors} {input : Bytes} {c : Cursor}

/-- Where the records begin. -/
def StreamReader.start (r : StreamReader) (input : Bytes) : Cursor :=
  if r.skipMagic then .new input else ⟨input.drop 8, 8⟩

/-- Where the exact reader comes to, and reads on. -/
inductive InFile (r : StreamReader) (D : Decompressors) (input : Bytes) : Cursor → Prop
  | start : InFile r D input (r.start input)
  | turn {c c' : Cursor} {records : List McapRecord} (h : InFile r D input c)
      (hturn : exactTurn r D input c = .ok ((records, false), c')) : InFile r D input c'

/-- **All records of an input are kept**, as are those of the chunks that are broken up. -/
structure Bounded (r : StreamReader) (D : Decompressors) (input : Bytes) : Prop where
  record : ∀ c, InFile r D input c → ∀ opcode length c₁,
    r.readHeader exactly c = .ok ((opcode, length), c₁) → Kept opcode length c₁
  chunk : r.emitChunks = false → ∀ c, InFile r D input c → ∀ opcode length c₁ chunk c₂,
    r.readHeader exactly c = .ok ((opcode, length), c₁) →
    readExactly opcode length c₁ = .ok (some (.chunk chunk), c₂) →
    ∀ data, getChunkData D chunk r.validateCrcs = .ok data → BoundedChunk data

theorem same_lift {α : Type} {x y : Except PyError α} (h : Same x y) (c : Cursor) :
    Same (lift x c) (lift y c) := by
  cases x with
  | error e =>
    cases y with
    | error e' => rfl
    | ok a => cases h
  | ok a =>
    cases y with
    | error e' => cases h
    | ok a' =>
      cases h
      rfl

theorem same_deliver {record : Option McapRecord}
    {breakup breakup' : Chunk → Except PyError (List McapRecord)}
    (h : r.emitChunks = false → ∀ chunk, record = some (.chunk chunk) →
      Same (breakup chunk) (breakup' chunk)) :
    Same (r.deliver breakup record) (r.deliver breakup' record) := by
  rcases record with _ | record
  · rfl
  · cases record with
    | chunk chunk =>
      show Same (if r.emitChunks then _ else _) (if r.emitChunks then _ else _)
      split
      · rfl
      · rename_i hemit
        exact same_bind (h (by simpa using hemit) chunk rfl) fun _ _ => rfl
    | _ => rfl

/-- What a turn does behind the header of a record; the check of the checksum and the skipping may
change places. -/
theorem same_body {opcode : UInt8} {length : Nat} {check : Option McapRecord → Except PyError Unit}
    {deliver deliver' : Option McapRecord → Except PyError (List McapRecord × Bool)}
    (hkept : Kept opcode length c)
    (hdeliver : ∀ record c', readExactly opcode length c = .ok (record, c') →
      Same (deliver record) (deliver' record)) :
    Same ((do
        let record ← readRecord ReadDataStream.read opcode length
        lift (check record)
        skipPadding ReadDataStream.read c.pos length
        lift (deliver record) : Read PyError (List McapRecord × Bool)) c)
      ((do
        let record ← readExactly opcode length
        lift (check record)
        lift (deliver' record) : Read PyError (List McapRecord × Bool)) c) := by
  have hpadded := same_readPadded_iff.mpr hkept
  rw [readPadded_run] at hpadded
  rw [run_bind, run_bind]
  rcases hread : readRecord ReadDataStream.read opcode length c with e | ⟨record, c₁⟩
  · rw [hread] at hpadded
    rcases hexact : readExactly opcode length c with e' | x
    · rfl
    · rw [hexact] at hpadded
      cases hpadded
  · rw [hread] at hpadded
    change Same ((skipPadding _ _ _ c₁).bind _) _ at hpadded
    show Same (((lift (check record)) c₁).bind fun y =>
      ((skipPadding ReadDataStream.read c.pos length y.2).bind fun z =>
        lift (deliver record) z.2)) _
    rcases hskip : skipPadding ReadDataStream.read c.pos length c₁ with e | ⟨_, c₂⟩
    · rw [hskip] at hpadded
      rcases hexact : readExactly opcode length c with e' | x
      · unfold lift
        rcases check record with e'' | _
        · rfl
        · show Same ((skipPadding ReadDataStream.read c.pos length c₁).bind _) _
          rw [hskip]
          rfl
      · rw [hexact] at hpadded
        cases hpadded
    · rw [hskip] at hpadded
      have hexact := hpadded.symm.eq_ok rfl
      rw [hexact]
      show Same _ (((lift (check record)) c₂).bind fun y => lift (deliver' record) y.2)
      unfold lift
      rcases check record with e'' | _
      · rfl
      · show Same ((skipPadding ReadDataStream.read c.pos length c₁).bind _) _
        rw [hskip]
        exact same_lift (hdeliver record c₂ hexact) c₂

theorem same_turn (h : Bounded r D input) (hc : InFile r D input c) :
    Same (r.turn D input c) (exactTurn r D input c) := by
  refine same_bind (same_readHeader r c) ?_
  rintro ⟨⟨opcode, length⟩, c₁⟩ hheader
  refine same_body (h.record c hc opcode length c₁ hheader) fun record c₂ hexact => ?_
  refine same_deliver fun hemit chunk hchunk => same_breakupChunk ?_
  rw [hchunk] at hexact
  exact h.chunk hemit c hc opcode length c₁ chunk c₂ hheader hexact

/-- The same is yielded, and an exception ends both generators or neither. -/
def Agree (y y' : Yields) : Prop := y.1 = y'.1 ∧ y.2.isSome = y'.2.isSome

theorem agree_loop (h : Bounded r D input) (fuel : Nat) (hc : InFile r D input c) :
    Agree (StreamReader.loop (r.turn D input) (readMagic ReadDataStream.read) fuel c)
      (StreamReader.loop (exactTurn r D input) (readMagic exactly) fuel c) := by
  induction fuel generalizing c with
  | zero => exact ⟨rfl, rfl⟩
  | succ fuel ih =>
    have hturn := same_turn h hc
    unfold StreamReader.loop
    rcases hexact : exactTurn r D input c with e | ⟨⟨records, last⟩, c'⟩
    · obtain ⟨e', hlibrary⟩ := hturn.eq_error hexact
      rw [hlibrary]
      exact ⟨rfl, rfl⟩
    · rw [hturn.eq_ok hexact]
      cases last with
      | true =>
        refine ⟨rfl, ?_⟩
        simp only
        rcases hmagic : readMagic exactly c' with e | x
        · obtain ⟨e', hlibrary⟩ := (same_readMagic c').eq_error hmagic
          rw [hlibrary]
          rfl
        · rw [(same_readMagic c').eq_ok hmagic]
      | false =>
        obtain ⟨hyield, herror⟩ := ih (.turn hc hexact)
        exact ⟨congrArg (records ++ ·) hyield, herror⟩

theorem readMagic_eq_ok {c' : Cursor} (h : readMagic exactly c = .ok ((), c')) :
    c' = ⟨c.rest.drop 8, c.pos + 8⟩ := by
  unfold readMagic at h
  rw [run_bind] at h
  rcases hread : exactly 8 c with e | ⟨magic, c₁⟩
  · rw [hread] at h
    cases h
  · obtain ⟨-, -, -, -, rfl⟩ := exactly_eq_ok hread
    rw [hread] at h
    change (if magic.length ≠ 8 then throw .structError
      else if magic ≠ MAGIC then throw (.invalidMagic magic) else pure () : Read PyError Unit) _ = _
      at h
    split at h
    · cases h
    · split at h
      · cases h
      · cases h
        rfl

/-- **The library's reader agrees with the exact one** where all records are kept. -/
theorem agree_records (h : Bounded r D input) :
    Agree (r.records D input) (exactRecords r D input) := by
  unfold StreamReader.records exactRecords StreamReader.run
  have hstart : InFile r D input (r.start input) := .start
  unfold StreamReader.start at hstart
  split
  · rename_i hskip
    rw [if_pos hskip] at hstart
    exact agree_loop h _ hstart
  · rename_i hskip
    rw [if_neg hskip] at hstart
    have hmagic := same_readMagic (.new input)
    rcases hexact : readMagic exactly (.new input) with e | ⟨_, c⟩
    · obtain ⟨e', hlibrary⟩ := hmagic.eq_error hexact
      rw [hlibrary]
      exact ⟨rfl, rfl⟩
    · rw [hmagic.eq_ok hexact]
      obtain rfl := readMagic_eq_ok hexact
      exact agree_loop h _ hstart

end

end Py
end Mcap

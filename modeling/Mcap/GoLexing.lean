import Mcap.GoLexer

/-! # What the Go lexer emits

A lexer stands in front of some bytes, of the base reader (`AtBase`) or of a chunk (`InChunk`).
Both are `Steady`: what is read or skipped is gone, and the lexer stands in front of the rest.  One
turn of `Next` takes one record, and `Emits` follows a lexer over many turns, whatever buffers it is
given; at the end of a chunk the lexer stands behind the chunk, wherever the decompressor was in
between.
-/
namespace Mcap
namespace Go

/-- The options of a lexer that opens chunks, without limits and without a callback. -/
def lexerOptions (skipMagic validateChunkCRCs : Bool)
    (decompressors : Bytes → Option Decompressor) : LexerOptions where
  skipMagic := skipMagic
  validateChunkCRCs := validateChunkCRCs
  computeAttachmentCRCs := false
  emitChunks := false
  emitInvalidChunks := false
  maxDecompressedChunkSize := 0
  maxRecordSize := 0
  attachmentCallback := none
  decompressors := decompressors

/-- Compression packages that are never called. -/
def noUnpackers : Unpackers where
  zstd _ := .error .eof
  lz4 _ := ⟨[], .eof, id, 0⟩

theorem length_le_frames {recs : List (UInt8 × Bytes)} {r : UInt8 × Bytes} (hr : r ∈ recs) :
    r.2.length ≤ (frames recs).length := by
  obtain ⟨before, after, rfl⟩ := List.append_of_mem hr
  rw [frames_append]
  show _ ≤ (frames before ++ (frame r.1 r.2 ++ frames after)).length
  simp only [List.length_append, length_frame]
  omega

/-! ## Where a lexer stands -/

/-- The length of a record is within the limit that is set. -/
def LexerOptions.Admits (opts : LexerOptions) (length : Nat) : Prop :=
  0 < opts.maxRecordSize → (length : Int) ≤ opts.maxRecordSize

/-- The magic at the start of what a lexer reads, unless it is told that there is none. -/
def LexerOptions.leading (opts : LexerOptions) : Bytes := if opts.skipMagic then [] else MAGIC

namespace Lexer
variable {D : Unpackers} {l l' : Lexer} {bytes rest outer : Bytes} {x y : Bytes} {n : Nat}
  {V : Bytes → Lexer → Prop} {opcode : UInt8} {body : Bytes} {type : TokenType} {ts : List Token}
  {c : Chunk} {capacity : Nat} {l₁ : Lexer} {capacities : Nat → Nat} {e : Error}

/-- The lexer stands in front of `bytes` of the base reader. -/
structure AtBase (bytes : Bytes) (l : Lexer) : Prop where
  reader : l.reader = .base
  rest : l.source.rest = bytes
  le : l.source.pos ≤ l.source.bytes.length
  lt : l.source.bytes.length < 2 ^ 63

/-- The lexer is in a chunk: `bytes` are left of it, and `outer` comes behind it. -/
inductive InChunk (outer bytes : Bytes) (l : Lexer) : Prop
  | limited (hreader : l.reader = .limited bytes.length) (hrest : l.source.rest = bytes ++ outer)
      (hle : l.source.pos ≤ l.source.bytes.length) (hlt : l.source.bytes.length < 2 ^ 63)
  | decoder {d : Decoding} {start read : Nat} (hreader : l.reader = .decoder d start read)
      (hbytes : d.bytes.drop read = bytes) (herror : d.error = .eof)
      (houter : l.source.bytes.drop (start + d.takenAtEnd) = outer)
      (hle : start + d.takenAtEnd ≤ l.source.bytes.length) (hlt : l.source.bytes.length < 2 ^ 63)
  | buffer {data : Bytes} {pos : Nat} (hreader : l.reader = .buffer data pos)
      (hbytes : data.drop pos = bytes) (hpos : pos ≤ data.length) (hdata : data.length < 2 ^ 62)
      (hrest : l.source.rest = outer) (hle : l.source.pos ≤ l.source.bytes.length)
      (hlt : l.source.bytes.length < 2 ^ 63)

/-- The lexer has the same options and the same buffer. -/
def Same (l l' : Lexer) : Prop := l'.opts = l.opts ∧ l'.room = l.room

theorem Same.refl (l : Lexer) : Same l l := ⟨rfl, rfl⟩

theorem Same.trans {l'' : Lexer} (h : Same l l') (h' : Same l' l'') : Same l l'' :=
  ⟨h'.1.trans h.1, h'.2.trans h.2⟩

/-- A view of the bytes in front of a lexer that moves on with what is read or skipped. -/
structure Steady (V : Bytes → Lexer → Prop) : Prop where
  read : ∀ {x y : Bytes} {l : Lexer}, V (x ++ y) l →
    ∃ l', l.readFull x.length = (x, none, l') ∧ V y l' ∧ Same l l'
  skip : ∀ {x y : Bytes} {l : Lexer}, V (x ++ y) l →
    ∃ l', l.skipReader x.length = (.ok (), l') ∧ V y l' ∧ Same l l'

theorem same_advance (l : Lexer) (k : Nat) (ended : Bool) : Same l (l.advance k ended) := by
  unfold advance
  split <;> exact ⟨rfl, rfl⟩

theorem readFull_of_le (h : l.available = x ++ y) :
    l.readFull x.length = (x, none, l.advance x.length false) := by
  unfold readFull
  rw [h, if_pos (by simp), List.take_left]

theorem discard_of_le (h : l.available = x ++ y) :
    l.discard x.length = (.ok (), l.advance x.length false) := by
  unfold discard
  rw [h, Int.toNat_natCast, if_pos (by simp)]

theorem drop_of_append {α : Type} {xs x y : List α} (h : xs.drop n = x ++ y) :
    xs.drop (n + x.length) = y := by
  rw [← List.drop_drop, h, List.drop_left]

theorem add_length_le {α : Type} {xs x y : List α} (h : xs.drop n = x ++ y)
    (hn : n ≤ xs.length) : n + x.length ≤ xs.length := by
  have hlen := congrArg List.length h
  rw [List.length_drop, List.length_append] at hlen
  omega

theorem AtBase.available (h : AtBase bytes l) : l.available = bytes := by
  unfold Lexer.available
  rw [h.reader]
  exact h.rest

theorem AtBase.advance (h : AtBase (x ++ y) l) (ended : Bool) :
    AtBase y (l.advance x.length ended) := by
  have hrest := h.rest
  have hle := h.le
  unfold Lexer.advance
  rw [h.reader]
  exact ⟨rfl, drop_of_append hrest, add_length_le hrest hle, h.lt⟩

theorem seek_eq_ok {pos : Nat} (h : pos + n < 2 ^ 63) : seek pos (n : Int) = .ok (pos + n) := by
  unfold seek
  rw [if_pos (by omega)]
  congr 1

theorem steady_atBase : Steady AtBase where
  read h := ⟨_, readFull_of_le h.available, h.advance false, same_advance _ _ _⟩
  skip {x y l} h := by
    have hle := add_length_le h.rest h.le
    have hlt := h.lt
    unfold skipReader
    rw [h.reader]
    by_cases hseeks : l.source.seeks = true
    · simp only [hseeks, if_true, seek_eq_ok (Nat.lt_of_le_of_lt hle hlt)]
      exact ⟨_, rfl, ⟨rfl, drop_of_append h.rest, hle, hlt⟩, ⟨rfl, rfl⟩⟩
    · simp only [hseeks, Bool.false_eq_true, if_false]
      exact ⟨_, discard_of_le h.available, h.advance false, same_advance _ _ _⟩

theorem InChunk.available (h : InChunk outer bytes l) : l.available = bytes := by
  unfold Lexer.available
  cases h with
  | limited hreader hrest hle hlt =>
    rw [hreader]
    show l.source.rest.take _ = _
    rw [hrest, Int.toNat_natCast, List.take_left]
  | decoder hreader hbytes herror houter hle hlt | buffer hreader hbytes hpos hdata hrest hle hlt =>
    rw [hreader]
    exact hbytes

theorem InChunk.final (h : InChunk outer bytes l) : l.final = .eof := by
  unfold Lexer.final
  cases h with
  | limited hreader hrest hle hlt => rw [hreader]
  | decoder hreader hbytes herror houter hle hlt =>
    rw [hreader]
    exact herror
  | buffer hreader hbytes hpos hdata hrest hle hlt => rw [hreader]

theorem InChunk.inChunk (h : InChunk outer bytes l) : l.inChunk = true := by
  unfold Lexer.inChunk
  cases h with
  | limited hreader hrest hle hlt => rw [hreader]
  | decoder hreader hbytes herror houter hle hlt => rw [hreader]
  | buffer hreader hbytes hpos hdata hrest hle hlt => rw [hreader]

theorem InChunk.advance (h : InChunk outer (x ++ y) l) :
    InChunk outer y (l.advance x.length false) := by
  unfold Lexer.advance
  cases h with
  | limited hreader hrest hle hlt =>
    rw [List.append_assoc] at hrest
    rw [hreader]
    refine .limited ?_ (drop_of_append hrest) (add_length_le hrest hle) hlt
    show Active.limited _ = Active.limited _
    rw [List.length_append, Int.natCast_add, Int.add_comm, Int.add_sub_cancel]
  | decoder hreader hbytes herror houter hle hlt =>
    rw [hreader]
    exact .decoder rfl (drop_of_append hbytes) herror houter hle hlt
  | buffer hreader hbytes hpos hdata hrest hle hlt =>
    rw [hreader]
    exact .buffer rfl (drop_of_append hbytes) (add_length_le hbytes hpos) hdata hrest hle hlt

theorem steady_inChunk (outer : Bytes) : Steady (InChunk outer) where
  read h := ⟨_, readFull_of_le h.available, h.advance, same_advance _ _ _⟩
  skip {x y l} h := by
    have hdiscard := discard_of_le h.available
    have hadvance := h.advance
    unfold skipReader
    cases h with
    | limited hreader hrest hle hlt | decoder hreader hbytes herror houter hle hlt =>
      rw [hreader]
      exact ⟨_, hdiscard, hadvance, same_advance _ _ _⟩
    | @buffer data pos hreader hbytes hpos hdata hrest hle hlt =>
      have hpos' := add_length_le hbytes hpos
      rw [hreader]
      have hseek : seek pos (x.length : Int) = .ok (pos + x.length) :=
        seek_eq_ok (by omega)
      refine ⟨{ l with reader := .buffer data (pos + x.length) }, ?_, ?_, ⟨rfl, rfl⟩⟩
      · simp only [hseek]
      · exact .buffer rfl (drop_of_append hbytes) hpos' hdata hrest hle hlt

/-! ## One turn -/

theorem turn_head (hV : Steady V) (h : V ((opcode :: le 8 n) ++ rest) l) (hn : n < 2 ^ 64)
    (hmax : l.opts.Admits n) :
    ∃ l', V rest l' ∧ Same l l' ∧ ∀ capacity, l.turn D capacity =
      if opcode = op.CHUNK ∧ l'.opts.emitChunks = false then l'.chunkTurn D capacity n
      else if opcode = op.ATTACHMENT then l'.attachmentTurn capacity (int64 n)
      else l'.recordTurn capacity opcode n := by
  obtain ⟨l', hread, hview, hsame⟩ := hV.read h
  have hnine : (opcode :: le 8 n).length = 9 := by simp
  rw [hnine] at hread
  refine ⟨l', hview, hsame, fun capacity => ?_⟩
  have hlength : ofLe ((opcode :: le 8 n).drop 1) = n := ofLe_le_of_lt hn
  have hwithin : ¬ (0 < l'.opts.maxRecordSize ∧ l'.opts.maxRecordSize < n) := by
    rw [hsame.1]
    rintro ⟨hpos, hlt⟩
    have hle := hmax hpos
    omega
  unfold turn
  rw [hread]
  simp only [hlength, if_neg hwithin, List.headD_cons]

theorem turn_frame (hV : Steady V) (h : V (frame opcode body ++ rest) l)
    (hlen : body.length < 2 ^ 64) (hmax : l.opts.Admits body.length) :
    ∃ l', V (body ++ rest) l' ∧ Same l l' ∧ ∀ capacity, l.turn D capacity =
      if opcode = op.CHUNK ∧ l'.opts.emitChunks = false then l'.chunkTurn D capacity body.length
      else if opcode = op.ATTACHMENT then l'.attachmentTurn capacity (int64 body.length)
      else l'.recordTurn capacity opcode body.length := by
  have hsplit : frame opcode body ++ rest = (opcode :: le 8 body.length) ++ (body ++ rest) := by
    simp [frame]
  rw [hsplit] at h
  exact turn_head hV h hlen hmax

theorem int64_of_lt (h : n < 2 ^ 63) : int64 n = n := if_pos h

theorem turn_token (hV : Steady V) (h : V (frame opcode body ++ rest) l)
    (hlen : body.length < maxInt32) (hmax : l.opts.Admits body.length)
    (htype : tokenType? opcode = some type)
    (hchunk : opcode = op.CHUNK → l.opts.emitChunks = true) :
    ∃ l', V rest l' ∧ Same l l' ∧
      ∀ capacity, l.turn D capacity = (.token ⟨type, body⟩, l') := by
  unfold maxInt32 at hlen
  obtain ⟨l₁, h₁, hsame, hturn⟩ := turn_frame (D := D) hV h (by omega) hmax
  obtain ⟨l₂, hread, h₂, hsame₂⟩ := hV.read h₁
  refine ⟨l₂, h₂, hsame.trans hsame₂, fun capacity => ?_⟩
  have hnot : ¬ (opcode = op.CHUNK ∧ l₁.opts.emitChunks = false) := by
    rintro ⟨hop, hemit⟩
    rw [hsame.1, hchunk hop] at hemit
    cases hemit
  have hattachment : opcode ≠ op.ATTACHMENT := by
    rintro rfl
    cases htype
  have hfits : ¬ (capacity < body.length ∧ ¬ body.length < maxInt32) := fun h => h.2 hlen
  rw [hturn, if_neg hnot, if_neg hattachment, recordTurn, if_neg hfits, hread]
  simp only [htype]

theorem turn_unknown (hV : Steady V) (h : V (frame opcode body ++ rest) l)
    (hlen : body.length < maxInt32) (hmax : l.opts.Admits body.length)
    (htype : tokenType? opcode = none) (hattachment : opcode ≠ op.ATTACHMENT)
    (hreserved : opcode ≠ opReserved) :
    ∃ l', V rest l' ∧ Same l l' ∧
      ∀ capacity, l.turn D capacity = (.again (max capacity body.length), l') := by
  unfold maxInt32 at hlen
  obtain ⟨l₁, h₁, hsame, hturn⟩ := turn_frame (D := D) hV h (by omega) hmax
  obtain ⟨l₂, hread, h₂, hsame₂⟩ := hV.read h₁
  refine ⟨l₂, h₂, hsame.trans hsame₂, fun capacity => ?_⟩
  have hchunk : opcode ≠ op.CHUNK := by
    rintro rfl
    cases htype
  have hfits : ¬ (capacity < body.length ∧ ¬ body.length < maxInt32) := fun h => h.2 hlen
  rw [hturn, if_neg fun h => hchunk h.1, if_neg hattachment, recordTurn, if_neg hfits, hread]
  simp only [htype, if_neg hreserved]

theorem turn_attachment (hV : Steady V) (h : V (frame op.ATTACHMENT body ++ rest) l)
    (hlen : body.length < 2 ^ 63) (hmax : l.opts.Admits body.length)
    (hcallback : l.opts.attachmentCallback = none) :
    ∃ l', V rest l' ∧ Same l l' ∧
      ∀ capacity, l.turn D capacity = (.again capacity, l') := by
  obtain ⟨l₁, h₁, hsame, hturn⟩ := turn_frame (D := D) hV h (by omega) hmax
  obtain ⟨l₂, hskip, h₂, hsame₂⟩ := hV.skip h₁
  refine ⟨l₂, h₂, hsame.trans hsame₂, fun capacity => ?_⟩
  have hcallback₁ : l₁.opts.attachmentCallback = none := by rw [hsame.1, hcallback]
  have hchunk : ¬ (op.ATTACHMENT = op.CHUNK ∧ l₁.opts.emitChunks = false) := fun h => by
    cases h.1
  rw [hturn, if_neg hchunk, if_pos rfl, int64_of_lt hlen, attachmentTurn]
  simp only [hcallback₁, skipAttachment, hskip]

/-! ## Many turns -/

/-- The turn goes on as `l'`, whatever the buffer; the buffer does not become a large one. -/
def Skips (D : Unpackers) (l l' : Lexer) : Prop :=
  ∀ capacity, ∃ capacity', l.turn D capacity = (.again capacity', l') ∧
    (capacity < maxInt32 → capacity' < maxInt32)

theorem Skips.of_eq (h : ∀ capacity, l.turn D capacity = (.again capacity, l')) : Skips D l l' :=
  fun capacity => ⟨capacity, h capacity, id⟩

/-- `Emits D l ts l'`: over any number of turns, and whatever buffers it is given, the lexer
returns the tokens `ts` and becomes `l'`. -/
inductive Emits (D : Unpackers) : Lexer → List Token → Lexer → Prop
  | nil (l : Lexer) : Emits D l [] l
  | skip {l l₁ l' : Lexer} {ts : List Token} (h : Skips D l l₁) (hrest : Emits D l₁ ts l') :
      Emits D l ts l'
  | token {l l₁ l' : Lexer} {t : Token} {ts : List Token}
      (h : ∀ capacity, l.turn D capacity = (.token t, l₁)) (hrest : Emits D l₁ ts l') :
      Emits D l (t :: ts) l'

theorem Emits.append {ts' : List Token} {l'' : Lexer} (h : Emits D l ts l')
    (h' : Emits D l' ts' l'') : Emits D l (ts ++ ts') l'' := by
  induction h with
  | nil l => exact h'
  | skip h hrest ih => exact .skip h (ih h')
  | token h hrest ih => exact .token h (ih h')

/-- The tokens of records that are not chunks to be opened. -/
def tokens (recs : List (UInt8 × Bytes)) : List Token :=
  recs.filterMap fun r => (tokenType? r.1).map (⟨·, r.2⟩)

@[simp] theorem tokens_nil : tokens [] = [] := rfl

@[simp] theorem tokens_append (recs recs' : List (UInt8 × Bytes)) :
    tokens (recs ++ recs') = tokens recs ++ tokens recs' := List.filterMap_append

/-- A record that the lexer can take as it is. -/
structure Readable (opts : LexerOptions) (r : UInt8 × Bytes) : Prop where
  chunk : r.1 = op.CHUNK → opts.emitChunks = true
  reserved : r.1 ≠ opReserved
  short : r.1 ≠ op.ATTACHMENT → r.2.length < maxInt32
  attachment : r.1 = op.ATTACHMENT → r.2.length < 2 ^ 63 ∧ opts.attachmentCallback = none
  admits : opts.Admits r.2.length

theorem emits_record (hV : Steady V) {r : UInt8 × Bytes} (hr : Readable l.opts r)
    (h : V (frame r.1 r.2 ++ rest) l) :
    ∃ l', Emits D l (tokens [r]) l' ∧ V rest l' ∧ Same l l' := by
  obtain ⟨opcode, body⟩ := r
  by_cases hop : opcode = op.ATTACHMENT
  · subst hop
    obtain ⟨hlen, hcallback⟩ := hr.attachment rfl
    obtain ⟨l', h', hsame, hturn⟩ := turn_attachment (D := D) hV h hlen hr.admits hcallback
    exact ⟨l', .skip (.of_eq hturn) (.nil l'), h', hsame⟩
  · cases htype : tokenType? opcode with
    | some type =>
      obtain ⟨l', h', hsame, hturn⟩ :=
        turn_token (D := D) hV h (hr.short hop) hr.admits htype hr.chunk
      refine ⟨l', ?_, h', hsame⟩
      rw [tokens, List.filterMap_cons_some (by rw [htype]; rfl), List.filterMap_nil]
      exact .token hturn (.nil l')
    | none =>
      obtain ⟨l', h', hsame, hturn⟩ :=
        turn_unknown (D := D) hV h (hr.short hop) hr.admits htype hop hr.reserved
      refine ⟨l', ?_, h', hsame⟩
      rw [tokens, List.filterMap_cons_none (by rw [htype]; rfl), List.filterMap_nil]
      exact .skip (fun capacity => ⟨_, hturn capacity, fun hcapacity =>
        Nat.max_lt.mpr ⟨hcapacity, hr.short hop⟩⟩) (.nil l')

/-- **Records in a row** are returned one after the other. -/
theorem emits_records (hV : Steady V) (recs : List (UInt8 × Bytes))
    (hrecs : ∀ r ∈ recs, Readable l.opts r) (h : V (frames recs ++ rest) l) :
    ∃ l', Emits D l (tokens recs) l' ∧ V rest l' ∧ Same l l' := by
  induction recs generalizing l with
  | nil => exact ⟨l, .nil l, h, .refl l⟩
  | cons r recs ih =>
    have hview : V (frame r.1 r.2 ++ (frames recs ++ rest)) l := by
      rw [← List.append_assoc]
      exact h
    obtain ⟨l₁, hemits, h₁, hsame⟩ :=
      emits_record (D := D) hV (hrecs r List.mem_cons_self) hview
    obtain ⟨l', hemits', h', hsame'⟩ := ih
      (fun r' hr' => by rw [hsame.1]; exact hrecs r' (List.mem_cons_of_mem _ hr')) h₁
    refine ⟨l', ?_, h', hsame.trans hsame'⟩
    have happend := hemits.append hemits'
    rwa [← tokens_append] at happend

/-! ## Chunks -/

/-- The decompressor has yielded all of its bytes and has taken all of its source. -/
structure Yields (d : Decoding) (source bytes : Bytes) : Prop where
  output : d.bytes = bytes
  error : d.error = .eof
  taken : d.taken bytes.length = source.length
  takenAtEnd : d.takenAtEnd = source.length

/-- `Unpacks D opts compression records bytes`: the lexer decompresses the records of a chunk to
`bytes`. -/
inductive Unpacks (D : Unpackers) (opts : LexerOptions) (compression records bytes : Bytes) : Prop
  | custom {decompressor : Decompressor} {d : Decoding}
      (hcustom : opts.decompressors compression = some decompressor)
      (hd : decompressor records = .ok d) (hyields : Yields d records bytes)
  | none (hcustom : opts.decompressors compression = none) (hname : compression = [])
      (hbytes : records = bytes)
  | zstd {d : Decoding} (hcustom : opts.decompressors compression = none)
      (hname : compression = utf8 "zstd") (hd : D.zstd records = .ok d)
      (hyields : Yields d records bytes)
  | lz4 (hcustom : opts.decompressors compression = none) (hname : compression = utf8 "lz4")
      (hyields : Yields (D.lz4 records) records bytes)

theorem turn_end (h : InChunk outer bytes l) (hshort : bytes.length < 9) :
    ∃ l', AtBase outer l' ∧ Same l l' ∧ ∀ capacity, l.turn D capacity = (.again capacity, l') := by
  obtain ⟨e, heof, hread⟩ : ∃ e, (Error.is .eof e || Error.is .unexpectedEOF e) = true ∧
      l.readFull 9 = (bytes, some e, l.advance bytes.length true) := by
    unfold readFull
    rw [h.available, h.final, if_neg (by omega)]
    by_cases hnil : bytes ≠ []
    · exact ⟨.unexpectedEOF, by decide, by rw [if_pos ⟨hnil, rfl⟩]⟩
    · exact ⟨.eof, by decide, by rw [if_neg fun h => hnil h.1]⟩
  have hin : (l.advance bytes.length true).inChunk = true := by
    unfold Lexer.inChunk advance
    cases h with
    | limited hreader hrest hle hlt => rw [hreader]
    | decoder hreader hbytes herror houter hle hlt => rw [hreader]
    | buffer hreader hbytes hpos hdata hrest hle hlt => rw [hreader]
  refine ⟨{ l.advance bytes.length true with reader := .base }, ?_, same_advance l _ true,
    fun capacity => ?_⟩
  · unfold advance
    cases h with
    | limited hreader hrest hle hlt =>
      rw [hreader]
      exact ⟨rfl, drop_of_append hrest, add_length_le hrest hle, hlt⟩
    | decoder hreader hbytes herror houter hle hlt =>
      rw [hreader]
      exact ⟨rfl, houter, hle, hlt⟩
    | buffer hreader hbytes hpos hdata hrest hle hlt =>
      rw [hreader]
      exact ⟨rfl, hrest, hle, hlt⟩
  · unfold turn
    rw [hread]
    simp only [endTurn, hin, heof, Bool.and_self, if_true]

/-- The chunk is in memory. -/
def buffered (l : Lexer) : Bool :=
  match l.reader with
  | .buffer .. => true
  | _ => false

/-- The fields that the lexer reads of a chunk. -/
def chunkHead (c : Chunk) : ChunkHead where
  uncompressedSize := c.uncompressedSize % 2 ^ 64
  uncompressedCRC := c.uncompressedCRC
  compression := c.compression
  recordsLength := c.records.length

theorem read_eq (h : AtBase (x ++ y) l) :
    ∃ l', AtBase y l' ∧ Same l l' ∧ read x.length l = (.ok (x, none), l') := by
  obtain ⟨l', hread, h', hsame⟩ := steady_atBase.read h
  refine ⟨l', h', hsame, ?_⟩
  unfold read
  rw [hread]

theorem readChunkHead_eq (h : AtBase (c.top ++ rest) l) (hname : c.compression.length ≤ 24)
    (hrecords : c.records.length < 2 ^ 64) (recordLen : Nat) :
    ∃ l', AtBase rest l' ∧ Same l l' ∧
      readChunkHead recordLen l = (.ok (chunkHead c), l') := by
  obtain ⟨top, htop⟩ : ∃ top, top = u64 c.messageStartTime ++ (u64 c.messageEndTime ++
      (le 8 c.uncompressedSize ++ (u32 c.uncompressedCRC ++ le 4 c.compression.length))) := ⟨_, rfl⟩
  have hsplit : c.top ++ rest =
      top ++ ((c.compression ++ le 8 c.records.length) ++ rest) := by
    simp [htop, Chunk.top, putPrefixedString]
  have hlen : top.length = 32 := by simp [htop]
  rw [hsplit] at h
  obtain ⟨l₁, h₁, hsame₁, hread₁⟩ := read_eq h
  obtain ⟨l₂, h₂, hsame₂, hread₂⟩ := read_eq h₁
  have hsize : ofLe ((top.drop 16).take 8) = c.uncompressedSize % 2 ^ 64 := by
    have hdrop : top.drop 16 = le 8 c.uncompressedSize ++
        (u32 c.uncompressedCRC ++ le 4 c.compression.length) := by
      rw [htop, ← List.append_assoc]
      exact List.drop_left' (by simp)
    rw [hdrop, List.take_left' (length_le _ _), ofLe_le, show 256 ^ 8 = 2 ^ 64 from rfl]
  have hcrc : (UInt32.ofNat (ofLe ((top.drop 24).take 4))) = c.uncompressedCRC := by
    have hdrop : top.drop 24 = u32 c.uncompressedCRC ++ le 4 c.compression.length := by
      rw [htop, ← List.append_assoc, ← List.append_assoc]
      exact List.drop_left' (by simp)
    rw [hdrop, List.take_left' (length_u32 _), u32, ofLe_le,
      Nat.mod_eq_of_lt (by exact c.uncompressedCRC.toNat_lt), UInt32.ofNat_toNat]
  have hcompression : ofLe ((top.drop 28).take 4) = c.compression.length := by
    have hdrop : top.drop 28 = le 4 c.compression.length := by
      rw [htop, ← List.append_assoc, ← List.append_assoc, ← List.append_assoc]
      exact List.drop_left' (by simp)
    rw [hdrop, List.take_of_length_le (by simp), ofLe_le_of_lt (by omega)]
  refine ⟨l₂, h₂, hsame₁.trans hsame₂, ?_⟩
  unfold readChunkHead
  rw [Exec.bind_ok ((by rw [← hread₁, hlen]) : _ = (Res.ok (top, none), l₁))]
  simp only
  unfold readCompression
  have htoNat : (UInt32.ofNat c.compression.length).toNat = c.compression.length := by
    rw [UInt32.toNat_ofNat', Nat.mod_eq_of_lt (by omega)]
  have hsum : (UInt32.ofNat c.compression.length + 8).toNat =
      (c.compression ++ le 8 c.records.length).length := by
    rw [UInt32.toNat_add, htoNat, List.length_append, length_le, show (8 : UInt32).toNat = 8 from rfl]
    omega
  simp only [hcompression, hsum]
  rw [if_neg (by rw [List.length_append, length_le]; omega)]
  rw [Exec.bind_ok hread₂]
  simp only [htoNat]
  rw [if_neg (by omega), hsize, hcrc, List.take_left, List.drop_left,
    List.take_of_length_le (by simp), ofLe_le_of_lt hrecords]
  rfl

/-- The reader that is put over the records: whatever is read of it, once all bytes are read the
base reader is behind the records. -/
structure Opened (rest bytes : Bytes) (l : Lexer) : Prop where
  inChunk : InChunk rest bytes l
  atEnd : AtBase rest { l.advance bytes.length false with reader := .base }
  afterEnd : AtBase rest { (l.advance bytes.length false).advance 0 true with reader := .base }

theorem opened_decoder {d : Decoding} {records : Bytes} (h : AtBase (records ++ rest) l)
    (hd : Yields d records bytes) :
    Opened rest bytes { l with reader := .decoder d l.source.pos 0 } := by
  have houter := drop_of_append h.rest
  have hle := add_length_le h.rest h.le
  have hinChunk : InChunk rest bytes { l with reader := .decoder d l.source.pos 0 } := by
    refine .decoder rfl hd.output hd.error ?_ ?_ h.lt
    · rw [hd.takenAtEnd]
      exact houter
    · rw [hd.takenAtEnd]
      exact hle
  refine ⟨hinChunk, ?_, ?_⟩
  · show AtBase rest { l with source := { l.source with pos := _ }, reader := .base }
    simp only [Bool.false_eq_true, if_false, Nat.zero_add, hd.taken]
    exact ⟨rfl, houter, hle, h.lt⟩
  · show AtBase rest { l with source := { l.source with pos := _ }, reader := .base }
    simp only [if_true, hd.takenAtEnd]
    exact ⟨rfl, houter, hle, h.lt⟩

theorem openChunk_eq (head : ChunkHead) {records : Bytes} (h : AtBase (records ++ rest) l)
    (hunpacks : Unpacks D l.opts head.compression records bytes)
    (hlength : head.recordsLength = records.length) (hlt : records.length < 2 ^ 63) :
    ∃ l', Opened rest bytes l' ∧ Same l l' ∧ l'.buffered = false ∧
      openChunk D head l = (.ok (), l') := by
  have hleft : int64 head.recordsLength = records.length := by rw [hlength, int64_of_lt hlt]
  have hsource : l.source.rest.take (int64 head.recordsLength).toNat = records := by
    rw [hleft, Int.toNat_natCast, h.rest, List.take_left]
  have hlz4 : utf8 "lz4" ≠ [] := by decide
  have hzstd : utf8 "zstd" ≠ [] := by decide
  have hdistinct : utf8 "lz4" ≠ utf8 "zstd" := by decide
  unfold openChunk
  simp only [hsource]
  cases hunpacks with
  | custom hcustom hd hyields =>
    refine ⟨_, opened_decoder h hyields, ⟨rfl, rfl⟩, rfl, ?_⟩
    simp only [hcustom, hd]
  | none hcustom hname hbytes =>
    subst hbytes
    refine ⟨{ l with reader := .limited records.length }, ⟨?_, ?_, ?_⟩, ⟨rfl, rfl⟩, rfl, ?_⟩
    · exact .limited rfl h.rest h.le h.lt
    · exact ⟨rfl, drop_of_append h.rest, add_length_le h.rest h.le, h.lt⟩
    · exact ⟨rfl, drop_of_append h.rest, add_length_le h.rest h.le, h.lt⟩
    · rw [hname] at hcustom
      simp only [hname, hcustom, if_true, hleft]
  | zstd hcustom hname hd hyields =>
    refine ⟨_, opened_decoder h hyields, ⟨rfl, rfl⟩, rfl, ?_⟩
    rw [hname] at hcustom
    simp only [hname, hcustom, if_neg hzstd, if_true, hd]
  | lz4 hcustom hname hyields =>
    refine ⟨_, opened_decoder h hyields, ⟨rfl, rfl⟩, rfl, ?_⟩
    rw [hname] at hcustom
    simp only [hname, hcustom, if_neg hlz4, if_neg hdistinct, if_true]

/-- The checks of a chunk that is validated. -/
structure Valid (opts : LexerOptions) (c : Chunk) (bytes : Bytes) : Prop where
  size : c.uncompressedSize = bytes.length
  lt : bytes.length * 2 < maxInt32
  within : 0 < opts.maxDecompressedChunkSize → (bytes.length : Int) ≤ opts.maxDecompressedChunkSize
  crc : c.uncompressedCRC = 0 ∨ c.uncompressedCRC = crc32 bytes

theorem Opened.withRoom (h : Opened rest bytes l) (room : Nat) :
    Opened rest bytes { l with room := room } := by
  have hadvance : ∀ (l : Lexer) (k : Nat) (ended : Bool),
      ({ l with room := room } : Lexer).advance k ended = { l.advance k ended with room := room } := by
    intro l k ended
    unfold advance
    cases l.reader <;> rfl
  refine ⟨?_, ?_, ?_⟩
  · cases h.inChunk with
    | limited hreader hrest hle hlt => exact .limited hreader hrest hle hlt
    | decoder hreader hbytes herror houter hle hlt =>
      exact .decoder hreader hbytes herror houter hle hlt
    | buffer hreader hbytes hpos hdata hrest hle hlt =>
      exact .buffer hreader hbytes hpos hdata hrest hle hlt
  · rw [hadvance]
    exact ⟨rfl, h.atEnd.rest, h.atEnd.le, h.atEnd.lt⟩
  · rw [hadvance, hadvance]
    exact ⟨rfl, h.afterEnd.rest, h.afterEnd.le, h.afterEnd.lt⟩

theorem makeRoom_eq {size : Nat} (h : size * 2 < maxInt32) (l : Lexer) :
    ∃ room, size ≤ room ∧ makeRoom size l = (.ok (), { l with room := room }) := by
  have hlt := h
  unfold maxInt32 at hlt
  unfold makeRoom
  by_cases hroom : l.room < size
  · have hmod : size * 2 % 2 ^ 64 = size * 2 := Nat.mod_eq_of_lt (by omega)
    rw [if_pos hroom]
    simp only [hmod, if_pos h]
    exact ⟨_, by omega, rfl⟩
  · rw [if_neg hroom]
    exact ⟨l.room, by omega, rfl⟩

theorem readExtra_eq (h : Opened rest bytes l) (compression : Bytes) :
    ∃ l', AtBase rest { l' with reader := .base } ∧ Same l l' ∧
      readExtra compression (l.advance bytes.length false) = (.ok (), l') := by
  have hnil : InChunk rest (bytes ++ []) l := by
    rw [List.append_nil]
    exact h.inChunk
  have hend := hnil.advance
  unfold readExtra
  by_cases hlz4 : compression = utf8 "lz4"
  · rw [if_pos hlz4]
    simp only [hend.available, hend.final]
    refine ⟨_, h.afterEnd, (same_advance l _ _).trans (same_advance _ _ _), ?_⟩
    simp
  · rw [if_neg hlz4]
    exact ⟨_, h.atEnd, same_advance _ _ _, rfl⟩

theorem fillBuffer_eq {head : ChunkHead} (h : Opened rest bytes l)
    (hsize : head.uncompressedSize = bytes.length) (hroom : bytes.length ≤ l.room)
    (hlt : bytes.length < 2 ^ 62)
    (hcrc : head.uncompressedCRC = 0 ∨ head.uncompressedCRC = crc32 bytes) :
    ∃ l', InChunk rest bytes l' ∧ Same l l' ∧ l'.buffered = true ∧
      fillBuffer head l = (.ok (), l') := by
  have hread : l.readFull bytes.length = (bytes, none, l.advance bytes.length false) :=
    readFull_of_le (y := []) (by rw [h.inChunk.available, List.append_nil])
  obtain ⟨l₁, hbase, hsame, hextra⟩ := readExtra_eq h head.compression
  have hcheck : ¬ (0 < head.uncompressedCRC ∧ crc32 bytes ≠ head.uncompressedCRC) := by
    rintro ⟨hpos, hne⟩
    rcases hcrc with hzero | heq
    · rw [hzero] at hpos
      exact absurd hpos (by decide)
    · exact hne heq.symm
  refine ⟨{ l₁ with reader := .buffer bytes 0 }, ?_, hsame, rfl, ?_⟩
  · exact .buffer rfl rfl (Nat.zero_le _) hlt hbase.rest hbase.le hbase.lt
  · unfold fillBuffer
    rw [Exec.bind_ok (Exec.get_run l), if_neg (by omega)]
    have hstep : read head.uncompressedSize l =
        (.ok (bytes, none), l.advance bytes.length false) := by
      unfold read
      rw [hsize, hread]
    rw [Exec.bind_ok hstep]
    simp only
    rw [Exec.bind_ok hextra]
    unfold checkChunk
    rw [if_neg hcheck]

theorem validateChunk_eq (h : Opened rest bytes l) (hvalid : Valid l.opts c bytes) :
    ∃ l', InChunk rest bytes l' ∧ l'.opts = l.opts ∧ l'.buffered = true ∧
      validateChunk (chunkHead c) l = (.ok (), l') := by
  have hlt := hvalid.lt
  unfold maxInt32 at hlt
  have hsize : (chunkHead c).uncompressedSize = bytes.length := by
    rw [chunkHead, hvalid.size, Nat.mod_eq_of_lt (by omega)]
  have hwithin : ¬ (0 < l.opts.maxDecompressedChunkSize ∧
      l.opts.maxDecompressedChunkSize < (chunkHead c).uncompressedSize) := by
    rw [hsize]
    rintro ⟨hpos, hlt'⟩
    have hle := hvalid.within hpos
    omega
  obtain ⟨room, hroom, hmake⟩ := makeRoom_eq hvalid.lt l
  obtain ⟨l', hview, hsame, hbuffered, hfill⟩ :=
    fillBuffer_eq (h.withRoom room) hsize hroom (by omega) hvalid.crc
  refine ⟨l', hview, hsame.1, hbuffered, ?_⟩
  unfold validateChunk
  rw [Exec.bind_ok (Exec.get_run l), if_neg hwithin, hsize, Exec.bind_ok hmake]
  exact hfill

/-- A chunk to be opened: the lexer comes to its records, and may then validate them.  The length
of the record plays no part. -/
theorem turn_opened (h : AtBase ((op.CHUNK :: le 8 n) ++ (c.body ++ rest)) l)
    (hemit : l.opts.emitChunks = false) (hname : c.compression.length ≤ 24)
    (hlen : c.body.length < 2 ^ 63) (hn : n < 2 ^ 64) (hmax : l.opts.Admits n)
    (hunpacks : Unpacks D l.opts c.compression c.records bytes) :
    ∃ l₁ l₂, Opened rest bytes l₂ ∧ Same l l₂ ∧ l₂.buffered = false ∧
      (∀ capacity, l.turn D capacity = l₁.chunkTurn D capacity n) ∧
      loadChunk D n l₁ =
        (if l.opts.validateChunkCRCs then validateChunk (chunkHead c) else pure ()) l₂ := by
  have hrecords : c.records.length < 2 ^ 63 := by
    have hsum := hlen
    rw [Chunk.body, List.length_append] at hsum
    omega
  obtain ⟨l₁, h₁, hsame₁, hturn⟩ := turn_head (D := D) steady_atBase h hn hmax
  rw [Chunk.body, List.append_assoc] at h₁
  obtain ⟨l₂, h₂, hsame₂, hhead⟩ := readChunkHead_eq h₁ hname (by omega) n
  have hopts₂ : l₂.opts = l.opts := (hsame₁.trans hsame₂).1
  obtain ⟨l₃, h₃, hsame₃, hbuffered, hopen⟩ := openChunk_eq (D := D) (chunkHead c) h₂
    (by rw [hopts₂]; exact hunpacks) rfl hrecords
  refine ⟨l₁, l₃, h₃, (hsame₁.trans hsame₂).trans hsame₃, hbuffered, fun capacity => ?_, ?_⟩
  · have hchunk : op.CHUNK = op.CHUNK ∧ l₁.opts.emitChunks = false :=
      ⟨rfl, by rw [hsame₁.1, hemit]⟩
    rw [hturn, if_pos hchunk]
  · have hin : l₁.inChunk = false := by
      unfold Lexer.inChunk
      rw [h₁.reader]
    unfold loadChunk
    rw [Exec.bind_ok (Exec.get_run l₁), hin, if_neg Bool.false_ne_true]
    rw [Exec.bind_ok hhead, Exec.bind_ok hopen, hsame₁.1]

/-- **A chunk is opened**: the lexer stands in front of the bytes that it holds. -/
theorem turn_chunk (h : AtBase ((op.CHUNK :: le 8 n) ++ (c.body ++ rest)) l)
    (hemit : l.opts.emitChunks = false) (hname : c.compression.length ≤ 24)
    (hlen : c.body.length < 2 ^ 63) (hn : n < 2 ^ 64) (hmax : l.opts.Admits n)
    (hunpacks : Unpacks D l.opts c.compression c.records bytes)
    (hvalid : l.opts.validateChunkCRCs = true → Valid l.opts c bytes) :
    ∃ l', InChunk rest bytes l' ∧ l'.opts = l.opts ∧ l'.buffered = l.opts.validateChunkCRCs ∧
      ∀ capacity, l.turn D capacity = (.again capacity, l') := by
  obtain ⟨l₁, l₂, h₂, hsame, hbuffered, hturn, hload⟩ :=
    turn_opened (D := D) h hemit hname hlen hn hmax hunpacks
  obtain ⟨l', hview, hopts, hbuffered', hrest⟩ : ∃ l', InChunk rest bytes l' ∧
      l'.opts = l.opts ∧ l'.buffered = l.opts.validateChunkCRCs ∧
        loadChunk D n l₁ = (.ok (), l') := by
    rw [hload]
    by_cases hvalidate : l.opts.validateChunkCRCs = true
    · obtain ⟨l', hview, hopts, hbuffered', heq⟩ := validateChunk_eq (c := c) h₂
        (by rw [hsame.1]; exact hvalid hvalidate)
      exact ⟨l', hview, hopts.trans hsame.1, by rw [hbuffered', hvalidate],
        by rw [if_pos hvalidate]; exact heq⟩
    · have hoff : l.opts.validateChunkCRCs = false := by simpa using hvalidate
      exact ⟨l₂, h₂.inChunk, hsame.1, hbuffered.trans hoff.symm, by rw [if_neg hvalidate]; rfl⟩
  refine ⟨l', hview, hopts, hbuffered', fun capacity => ?_⟩
  rw [hturn, chunkTurn, hrest]

/-! ## What is too large -/

theorem makeRoom_large {size : Nat} (hroom : l.room < size) (hlarge : maxInt32 ≤ size * 2)
    (hlt : size * 2 < 2 ^ 64) : makeRoom size l =
      (.err (.wrapped "failed to allocate chunk buffer" errLengthOutOfRange),
        { l with room := 0 }) := by
  unfold makeRoom
  rw [if_pos hroom]
  simp only [Nat.mod_eq_of_lt hlt]
  rw [if_neg (by omega)]

theorem turn_chunk_large (bytes : Bytes) (h : AtBase ((op.CHUNK :: le 8 n) ++ (c.body ++ rest)) l)
    (hemit : l.opts.emitChunks = false) (hname : c.compression.length ≤ 24)
    (hlen : c.body.length < 2 ^ 63) (hn : n < 2 ^ 64) (hmax : l.opts.Admits n)
    (hunpacks : Unpacks D l.opts c.compression c.records bytes)
    (hvalidate : l.opts.validateChunkCRCs = true) (hwithin : l.opts.maxDecompressedChunkSize = 0)
    (hroom : l.room < c.uncompressedSize) (hlarge : maxInt32 ≤ c.uncompressedSize * 2)
    (hlt : c.uncompressedSize * 2 < 2 ^ 64) :
    ∃ l', ∀ capacity, l.turn D capacity =
      (.fail .error (.wrapped "failed to allocate chunk buffer" errLengthOutOfRange), l') := by
  obtain ⟨l₁, l₂, h₂, hsame, -, hturn, hload⟩ :=
    turn_opened (D := D) h hemit hname hlen hn hmax hunpacks
  refine ⟨{ l₂ with room := 0 }, fun capacity => ?_⟩
  have hsize : (chunkHead c).uncompressedSize = c.uncompressedSize := Nat.mod_eq_of_lt (by omega)
  have hmake := makeRoom_large (l := l₂) (by rw [hsame.2]; exact hroom) hlarge hlt
  have hfail : loadChunk D n l₁ =
      (.err (.wrapped "failed to allocate chunk buffer" errLengthOutOfRange),
        { l₂ with room := 0 }) := by
    rw [hload, if_pos hvalidate]
    unfold validateChunk
    rw [Exec.bind_ok (Exec.get_run l₂), if_neg (by rw [hsame.1, hwithin]; omega), hsize,
      Exec.bind_err hmake]
  rw [hturn, chunkTurn, hfail]

theorem turn_large (hV : Steady V) (h : V (frame opcode body ++ rest) l)
    (hlen : body.length < 2 ^ 64) (hmax : l.opts.Admits body.length) (hchunk : opcode ≠ op.CHUNK)
    (hattachment : opcode ≠ op.ATTACHMENT) (hlarge : maxInt32 ≤ body.length) :
    ∃ l', ∀ capacity < body.length, l.turn D capacity = (.fail .error
      (.wrapped ("failed to allocate " ++ toString body.length ++ " bytes for " ++
        opcodeName opcode ++ " token") errLengthOutOfRange), l') := by
  obtain ⟨l', -, -, hturn⟩ := turn_frame (D := D) hV h hlen hmax
  refine ⟨l', fun capacity hcapacity => ?_⟩
  rw [hturn, if_neg fun h => hchunk h.1, if_neg hattachment, recordTurn,
    if_pos ⟨hcapacity, by omega⟩]

/-! ## Files -/

/-- A top-level record: one that is taken as it is, or a chunk to be opened that holds whole
records. -/
inductive Item
  | record (r : UInt8 × Bytes)
  | chunk (c : Chunk) (recs : List (UInt8 × Bytes))

namespace Item

/-- The record. -/
def framed : Item → UInt8 × Bytes
  | record r => r
  | chunk c _ => (op.CHUNK, c.body)

/-- The tokens of an item. -/
def tokens : Item → List Token
  | record r => Lexer.tokens [r]
  | chunk _ recs => Lexer.tokens recs

/-- The lexer can take the item. -/
inductive Readable (D : Unpackers) (opts : LexerOptions) : Item → Prop
  | record {r : UInt8 × Bytes} (h : Lexer.Readable opts r) : Readable D opts (.record r)
  | chunk {c : Chunk} {recs : List (UInt8 × Bytes)} (hemit : opts.emitChunks = false)
      (hname : c.compression.length ≤ 24) (hlen : c.body.length < 2 ^ 63)
      (hmax : opts.Admits c.body.length)
      (hunpacks : Unpacks D opts c.compression c.records (frames recs))
      (hvalid : opts.validateChunkCRCs = true → Valid opts c (frames recs))
      (hrecs : ∀ r ∈ recs, Lexer.Readable opts r) : Readable D opts (.chunk c recs)

end Item

theorem emits_item {i : Item} (hi : i.Readable D l.opts)
    (h : AtBase (frame i.framed.1 i.framed.2 ++ rest) l) :
    ∃ l', Emits D l i.tokens l' ∧ AtBase rest l' ∧ l'.opts = l.opts := by
  cases hi with
  | record hr =>
    obtain ⟨l', hemits, h', hsame⟩ := emits_record (D := D) steady_atBase hr h
    exact ⟨l', hemits, h', hsame.1⟩
  | @chunk c recs hemit hname hlen hmax hunpacks hvalid hrecs =>
    have hview : AtBase ((op.CHUNK :: le 8 c.body.length) ++ (c.body ++ rest)) l := by
      have hsplit : (op.CHUNK :: le 8 c.body.length) ++ (c.body ++ rest) =
          frame op.CHUNK c.body ++ rest := by simp [frame]
      rw [hsplit]
      exact h
    obtain ⟨l₁, h₁, hopts₁, -, hturn⟩ :=
      turn_chunk hview hemit hname hlen (by omega) hmax hunpacks hvalid
    rw [← List.append_nil (frames recs)] at h₁
    obtain ⟨l₂, hemits, h₂, hsame₂⟩ := emits_records (D := D) (steady_inChunk rest)
      recs (by rw [hopts₁]; exact hrecs) h₁
    obtain ⟨l', h', hsame', hend⟩ := turn_end (D := D) h₂ (Nat.zero_lt_succ 8)
    refine ⟨l', .skip (.of_eq hturn) ?_, h', hsame'.1.trans (hsame₂.1.trans hopts₁)⟩
    have happend := hemits.append (.skip (.of_eq hend) (.nil l'))
    rwa [List.append_nil] at happend

/-- **Top-level records in a row**: the chunks among them are replaced by what they hold. -/
theorem emits_items (items : List Item) (hitems : ∀ i ∈ items, i.Readable D l.opts)
    (h : AtBase (frames (items.map Item.framed) ++ rest) l) :
    ∃ l', Emits D l (items.flatMap Item.tokens) l' ∧ AtBase rest l' ∧ l'.opts = l.opts := by
  induction items generalizing l with
  | nil => exact ⟨l, .nil l, h, rfl⟩
  | cons i items ih =>
    have hview : AtBase (frame i.framed.1 i.framed.2 ++
        (frames (items.map Item.framed) ++ rest)) l := by
      rw [← List.append_assoc]
      exact h
    obtain ⟨l₁, hemits, h₁, hopts₁⟩ := emits_item (hitems i List.mem_cons_self) hview
    obtain ⟨l', hemits', h', hopts'⟩ :=
      ih (fun j hj => by rw [hopts₁]; exact hitems j (List.mem_cons_of_mem _ hj)) h₁
    exact ⟨l', hemits.append hemits', h', hopts'.trans hopts₁⟩

theorem turn_magic (h : AtBase MAGIC l) :
    ∃ l', ∀ capacity, l.turn D capacity = (.fail .error .eof, l') := by
  have hread : l.readFull 9 = (MAGIC, some .unexpectedEOF, l.advance 8 true) := by
    have hfinal : l.final = .eof := by
      unfold final
      rw [h.reader]
    unfold readFull
    rw [h.available, hfinal]
    rfl
  have hbase : (l.advance 8 true).inChunk = false := by
    unfold inChunk advance
    rw [h.reader]
  refine ⟨l.advance 8 true, fun capacity => ?_⟩
  unfold turn
  rw [hread]
  simp only [endTurn, hbase, Bool.false_and, Bool.false_eq_true, if_false]
  rfl

theorem newLexer_eq (opts : LexerOptions) (file : Bytes) (seeks : Bool)
    (hfile : file = opts.leading ++ rest) (hlen : file.length < 2 ^ 63) :
    ∃ l, newLexer ⟨file, 0, seeks⟩ opts = .ok l ∧ AtBase rest l ∧ l.opts = opts ∧ l.room = 0 := by
  unfold newLexer
  unfold LexerOptions.leading at hfile
  by_cases hskip : opts.skipMagic = true
  · rw [if_pos hskip] at hfile ⊢
    exact ⟨_, rfl, ⟨rfl, hfile, Nat.zero_le _, hlen⟩, rfl, rfl⟩
  · rw [if_neg hskip] at hfile ⊢
    have htake : Source.rest ⟨file, 0, seeks⟩ = MAGIC ++ rest := hfile
    rw [htake, if_pos (@List.take_left _ MAGIC _)]
    refine ⟨_, rfl, ⟨rfl, ?_, ?_, hlen⟩, rfl, rfl⟩
    · show file.drop (0 + MAGIC.length) = rest
      rw [hfile, Nat.zero_add, List.drop_left]
    · show 0 + MAGIC.length ≤ file.length
      rw [hfile, List.length_append]
      omega

/-! ## Attachments -/

theorem fullAt_le {bytes : Bytes} {final : Error} {offset offset' : Nat}
    (h : fullAt bytes final offset n = .ok (x, offset')) : offset' ≤ bytes.length := by
  unfold fullAt at h
  split at h
  · cases h
    assumption
  · cases h

theorem mapError_bind_eq_ok {α β : Type} {x : Except Error α} {g : Error → Error}
    {f : α → Except Error β} {b : β} (h : (x.mapError g >>= f) = .ok b) :
    ∃ a, x = .ok a ∧ f a = .ok b := by
  cases x with
  | error e => cases h
  | ok a => exact ⟨a, rfl, h⟩

theorem parseAttachmentReader_le {bytes : Bytes} {final : Error} {computeCRC : Bool}
    {reader : AttachmentReader} {offset : Nat}
    (h : parseAttachmentReader bytes final computeCRC = .ok (reader, offset)) :
    offset ≤ bytes.length := by
  unfold parseAttachmentReader at h
  obtain ⟨⟨logTime, offset₁⟩, -, h⟩ := mapError_bind_eq_ok h
  obtain ⟨⟨createTime, offset₂⟩, -, h⟩ := mapError_bind_eq_ok h
  obtain ⟨⟨name, offset₃⟩, -, h⟩ := mapError_bind_eq_ok h
  obtain ⟨⟨mediaType, offset₄⟩, -, h⟩ := mapError_bind_eq_ok h
  obtain ⟨⟨dataSize, offset₅⟩, hread, h⟩ := mapError_bind_eq_ok h
  cases h
  unfold readUint64 at hread
  cases hfull : fullAt bytes final offset₄ 8 with
  | error e =>
    rw [hfull] at hread
    cases hread
  | ok p =>
    rw [hfull] at hread
    cases hread
    exact fullAt_le hfull

/-! ## Calls of `Next` -/

/-- A call of `Next` returns. -/
def Returns (D : Unpackers) (capacity : Nat) (l : Lexer) (r : Result) (l' : Lexer) : Prop :=
  ∃ fuel, l.next D fuel capacity = some (r, l')

theorem next_mono {fuel fuel' : Nat} {r : Result × Lexer} (hle : fuel ≤ fuel')
    (h : l.next D fuel capacity = some r) : l.next D fuel' capacity = some r := by
  induction fuel generalizing fuel' capacity l with
  | zero => cases h
  | succ fuel ih =>
    obtain _ | fuel' := fuel'
    · omega
    · rw [next] at h ⊢
      rcases hturn : l.turn D capacity with ⟨t, l₁⟩
      rw [hturn] at h
      cases t with
      | again capacity' => exact ih (by omega) h
      | _ => exact h

theorem Returns.unique {r r' : Result} {l₂ : Lexer} (h : Returns D capacity l r l₁)
    (h' : Returns D capacity l r' l₂) : r = r' ∧ l₁ = l₂ := by
  obtain ⟨fuel, h⟩ := h
  obtain ⟨fuel', h'⟩ := h'
  have hmono := next_mono (Nat.le_max_left fuel fuel') h
  have hmono' := next_mono (Nat.le_max_right fuel fuel') h'
  rw [hmono] at hmono'
  exact Prod.mk.inj (Option.some.inj hmono')

theorem Returns.again {capacity' : Nat} {r : Result}
    (hturn : l.turn D capacity = (.again capacity', l₁)) (h : Returns D capacity' l₁ r l') :
    Returns D capacity l r l' := by
  obtain ⟨fuel, h⟩ := h
  refine ⟨fuel + 1, ?_⟩
  rw [next, hturn]
  exact h

/-- `Lexes D capacities l ts type e`: calls of `Next` with buffers of the given capacities return
the tokens `ts`, and then the error `e`. -/
inductive Lexes (D : Unpackers) :
    (Nat → Nat) → Lexer → List Token → TokenType → Error → Prop
  | fail {capacities : Nat → Nat} {l l' : Lexer} {type : TokenType} {e : Error}
      (h : Returns D (capacities 0) l (.fail type e) l') : Lexes D capacities l [] type e
  | token {capacities : Nat → Nat} {l l' : Lexer} {t : Token} {ts : List Token}
      {type : TokenType} {e : Error} (h : Returns D (capacities 0) l (.token t) l')
      (hrest : Lexes D (fun i => capacities (i + 1)) l' ts type e) :
      Lexes D capacities l (t :: ts) type e

theorem Lexes.unique {ts' : List Token} {type' : TokenType} {e' : Error}
    (h : Lexes D capacities l ts type e)
    (h' : Lexes D capacities l ts' type' e') : ts = ts' ∧ type = type' ∧ e = e' := by
  induction h generalizing ts' with
  | fail h =>
    cases h' with
    | fail h' =>
      obtain ⟨hr, -⟩ := h.unique h'
      cases hr
      exact ⟨rfl, rfl, rfl⟩
    | token h' hrest => cases (h.unique h').1
  | token h hrest ih =>
    cases h' with
    | fail h' => cases (h.unique h').1
    | token h' hrest' =>
      obtain ⟨hr, rfl⟩ := h.unique h'
      cases hr
      obtain ⟨rfl, htype, he⟩ := ih hrest'
      exact ⟨rfl, htype, he⟩

theorem Lexes.again (hturn : l.turn D (capacities 0) = (.again capacity, l₁))
    (h : Lexes D (fun i => if i = 0 then capacity else capacities i) l₁ ts type e) :
    Lexes D capacities l ts type e := by
  cases h with
  | fail h => exact .fail (h.again hturn)
  | token h hrest => exact .token (h.again hturn) hrest

/-- **A lexer that is followed to an error** returns the tokens one after the other, and then the
error; the buffers it is given are not large ones. -/
theorem Emits.lexes_of_lt (h : Emits D l ts l')
    (hfail : ∀ capacity < maxInt32, ∃ l'', l'.turn D capacity = (.fail type e, l''))
    (hlt : ∀ i, capacities i < maxInt32) :
    Lexes D capacities l ts type e := by
  induction h generalizing capacities with
  | nil l =>
    obtain ⟨l'', hturn⟩ := hfail _ (hlt 0)
    have hreturns : Returns D (capacities 0) l (.fail type e) l'' := ⟨1, by rw [next, hturn]⟩
    exact .fail hreturns
  | skip h hrest ih =>
    obtain ⟨capacity, hturn, hcapacity⟩ := h (capacities 0)
    refine .again hturn (ih hfail fun i => ?_)
    by_cases hi : i = 0
    · rw [if_pos hi]
      exact hcapacity (hlt 0)
    · rw [if_neg hi]
      exact hlt i
  | token h hrest ih =>
    refine .token ⟨1, ?_⟩ (ih hfail fun i => hlt (i + 1))
    rw [next, h]

theorem Emits.lexes {l'' : Lexer} (h : Emits D l ts l')
    (hfail : ∀ capacity, l'.turn D capacity = (.fail type e, l''))
    (capacities : Nat → Nat) : Lexes D capacities l ts type e := by
  induction h generalizing capacities with
  | nil l =>
    have hreturns : Returns D (capacities 0) l (.fail type e) l'' := ⟨1, by rw [next, hfail]⟩
    exact .fail hreturns
  | skip h hrest ih =>
    obtain ⟨capacity, hturn, -⟩ := h (capacities 0)
    exact .again hturn (ih hfail _)
  | token h hrest ih =>
    refine .token ⟨1, ?_⟩ (ih hfail _)
    rw [next, h]

end Lexer

end Go
end Mcap

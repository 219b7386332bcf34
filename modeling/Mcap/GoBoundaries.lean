import Mcap.GoLexing

/-! # Where chunks end for the Go lexer

A lexer that emits chunks takes every record as a whole.  One that opens them takes the fields of a
chunk, and then its records until they end; of the length of the chunk record it takes no notice.
So bytes behind the records field are lexed as further records, and a record that is cut off before
its body begins is not noticed.

What a lexer does with records is a `Run`: the tokens, and where it stops, if it does.  `Follows`
ties a lexer to a run; runs are put together one after the other (`Follows.andThen`), so that those
of both lexers are described part by part.
-/
namespace Mcap
namespace Go
namespace Lexer
variable {D : Unpackers} {opts : LexerOptions} {l l' : Lexer} {bytes rest outer : Bytes} {run : Run}
  {P : Lexer → Prop} {r : UInt8 × Bytes} {tail : Bytes}

/-! ## Runs -/

/-- Where a lexer stops. -/
inductive Stop
  | fail (type : TokenType) (e : Error)
  | panic
deriving DecidableEq

/-- What a lexer returns, and where it stops before it comes to the end of the bytes. -/
structure Run where
  tokens : List Token
  stop : Option Stop

namespace Run

/-- Nothing. -/
def nil : Run := ⟨[], none⟩

/-- A run that stops at once with an error. -/
def fail (e : Error) : Run := ⟨[], some (.fail .error e)⟩

/-- One run after the other. -/
def andThen (r s : Run) : Run :=
  match r.stop with
  | some _ => r
  | none => ⟨r.tokens ++ s.tokens, s.stop⟩

theorem andThen_of_stop {r s : Run} {stop : Stop} (h : r.stop = some stop) : r.andThen s = r := by
  unfold andThen
  rw [h]

theorem andThen_of_none {r s : Run} (h : r.stop = none) :
    r.andThen s = ⟨r.tokens ++ s.tokens, s.stop⟩ := by
  unfold andThen
  rw [h]

end Run

/-- The next turn of the lexer stops, if its buffer is not a large one. -/
def Stops (D : Unpackers) (l : Lexer) : Stop → Prop
  | .fail type e => ∀ capacity < maxInt32, ∃ l', l.turn D capacity = (.fail type e, l')
  | .panic => ∀ capacity, ∃ l', l.turn D capacity = (.panic, l')

/-- `Follows D l run P`: the lexer returns the tokens of the run, and stops where it does, or
becomes one of which `P` holds. -/
def Follows (D : Unpackers) (l : Lexer) (run : Run) (P : Lexer → Prop) : Prop :=
  ∃ l', Emits D l run.tokens l' ∧
    match run.stop with
    | some stop => Stops D l' stop
    | none => P l'

theorem Follows.of_stop {stop : Stop} (h : run.stop = some stop) (hemits : Emits D l run.tokens l')
    (hstops : Stops D l' stop) : Follows D l run P :=
  ⟨l', hemits, by rw [h]; exact hstops⟩

theorem Follows.of_none (h : run.stop = none) (hemits : Emits D l run.tokens l')
    (hp : P l') : Follows D l run P :=
  ⟨l', hemits, by rw [h]; exact hp⟩

/-- **One run after the other.** -/
theorem Follows.andThen {r s : Run} {Q : Lexer → Prop} (h : Follows D l r P)
    (hs : ∀ l', P l' → Follows D l' s Q) : Follows D l (r.andThen s) Q := by
  obtain ⟨l₁, hemits, hend⟩ := h
  cases hstop : r.stop with
  | some stop =>
    rw [hstop] at hend
    rw [Run.andThen_of_stop hstop]
    exact .of_stop hstop hemits hend
  | none =>
    rw [hstop] at hend
    obtain ⟨l₂, hemits₂, hend₂⟩ := hs l₁ hend
    rw [Run.andThen_of_none hstop]
    exact ⟨l₂, hemits.append hemits₂, hend₂⟩

theorem Follows.mono {Q : Lexer → Prop} (h : Follows D l run P)
    (hpq : ∀ l', P l' → Q l') : Follows D l run Q := by
  obtain ⟨l', hemits, hend⟩ := h
  refine ⟨l', hemits, ?_⟩
  cases hstop : run.stop with
  | some stop => rwa [hstop] at hend
  | none =>
    rw [hstop] at hend
    exact hpq l' hend

/-! ## One record -/

/-- The length of a record is over the limit that is set. -/
def exceeds (opts : LexerOptions) (n : Nat) : Prop :=
  0 < opts.maxRecordSize ∧ opts.maxRecordSize < n

instance (opts : LexerOptions) (n : Nat) : Decidable (exceeds opts n) :=
  inferInstanceAs (Decidable (_ ∧ _))

/-- The run of a record, if its length is within the limit. -/
def limitedRun (opts : LexerOptions) (n : Nat) (run : Run) : Run :=
  if exceeds opts n then .fail (.text "record exceeds configured maximum size") else run

/-- What becomes of an attachment. -/
def attachmentRun (opts : LexerOptions) (body : Bytes) : Run :=
  match opts.attachmentCallback with
  | none => .nil
  | some callback =>
      match parseAttachmentReader body .eof opts.computeAttachmentCRCs with
      | .error e => .fail (.wrapped "failed to parse attachment" e)
      | .ok (attachmentReader, offset) =>
          match (callback attachmentReader (body.drop offset)).2 with
          | some e => .fail (.wrapped "failed to handle attachment" e)
          | none => .nil

/-- What becomes of a record that is taken as it is. -/
def plainRun (opcode : UInt8) (body : Bytes) : Run :=
  if maxInt32 ≤ body.length then
    .fail (.wrapped ("failed to allocate " ++ toString body.length ++ " bytes for " ++
      opcodeName opcode ++ " token") errLengthOutOfRange)
  else
    match tokenType? opcode with
    | some type => ⟨[⟨type, body⟩], none⟩
    | none => if opcode = opReserved then .fail (.text "invalid zero opcode") else .nil

/-- What becomes of a record that is not a chunk to be opened. -/
def recordRun (opts : LexerOptions) (r : UInt8 × Bytes) : Run :=
  limitedRun opts r.2.length
    (if r.1 = op.ATTACHMENT then attachmentRun opts r.2 else plainRun r.1 r.2)

/-- A view that shows the bytes in front of a lexer. -/
structure Shown (V : Bytes → Lexer → Prop) : Prop extends Steady V where
  available : ∀ {bytes : Bytes} {l : Lexer}, V bytes l → l.available = bytes
  advance : ∀ {x y : Bytes} {l : Lexer}, V (x ++ y) l → V y (l.advance x.length false)

theorem shown_atBase : Shown AtBase where
  toSteady := steady_atBase
  available h := h.available
  advance h := h.advance false

section
variable {V : Bytes → Lexer → Prop} {opcode : UInt8} {body : Bytes}

theorem turn_exceeds (hV : Steady V) {n : Nat} (h : V ((opcode :: le 8 n) ++ rest) l)
    (hn : n < 2 ^ 64) (hexceeds : exceeds l.opts n) : ∃ l', ∀ capacity, l.turn D capacity =
      (.fail .error (.text "record exceeds configured maximum size"), l') := by
  obtain ⟨l', hread, -, hsame⟩ := hV.read h
  have hnine : (opcode :: le 8 n).length = 9 := by simp
  rw [hnine] at hread
  refine ⟨l', fun capacity => ?_⟩
  have hlength : ofLe ((opcode :: le 8 n).drop 1) = n := ofLe_le_of_lt hn
  have hover : 0 < l'.opts.maxRecordSize ∧ l'.opts.maxRecordSize < n := by
    rw [hsame.1]
    exact hexceeds
  unfold turn
  rw [hread]
  simp only [hlength, if_pos hover]

theorem admits_of_not_exceeds {n : Nat} (h : ¬ exceeds opts n) : opts.Admits n := by
  intro hpos
  by_contra hlt
  exact h ⟨hpos, by omega⟩

theorem follows_attachment (hV : Shown V) (h : V (frame op.ATTACHMENT body ++ rest) l)
    (hlen : body.length < 2 ^ 63) (hmax : l.opts.Admits body.length) :
    Follows D l (attachmentRun l.opts body) fun l' => V rest l' ∧ Same l l' := by
  cases hcallback : l.opts.attachmentCallback with
  | none =>
    obtain ⟨l', h', hsame, hturn⟩ :=
      turn_attachment (D := D) hV.toSteady h hlen hmax hcallback
    unfold attachmentRun
    rw [hcallback]
    exact .of_none rfl (.skip (.of_eq hturn) (.nil l')) ⟨h', hsame⟩
  | some callback =>
    obtain ⟨l₁, h₁, hsame, hturn⟩ := turn_frame (D := D) hV.toSteady h (by omega) hmax
    have hchunk : ¬ (op.ATTACHMENT = op.CHUNK ∧ l₁.opts.emitChunks = false) := fun h => by
      cases h.1
    have hcallback₁ : l₁.opts.attachmentCallback = some callback := by rw [hsame.1, hcallback]
    -- the callback is shown the record
    have htake : l₁.available.take (int64 body.length).toNat = body := by
      rw [hV.available h₁, int64_of_lt hlen, Int.toNat_natCast, List.take_left]
    have hshort : decide (l₁.available.length < (int64 body.length).toNat) = false := by
      rw [hV.available h₁, int64_of_lt hlen, Int.toNat_natCast, List.length_append]
      exact decide_eq_false (by omega)
    have hattachment : ∀ capacity, l.turn D capacity =
        l₁.attachmentTurn capacity (int64 body.length) := by
      intro capacity
      rw [hturn, if_neg hchunk, if_pos rfl]
    unfold attachmentTurn at hattachment
    simp only [hcallback₁, htake, hshort, Bool.false_eq_true, if_false] at hattachment
    rw [hsame.1] at hattachment
    unfold attachmentRun
    rw [hcallback]
    simp only
    cases hparse : parseAttachmentReader body .eof l.opts.computeAttachmentCRCs with
    | error e =>
      simp only [hparse] at hattachment
      exact .of_stop rfl (.nil l) fun capacity _ => ⟨_, hattachment capacity⟩
    | ok p =>
      obtain ⟨reader, offset⟩ := p
      simp only [hparse] at hattachment
      simp only
      cases herr : (callback reader (body.drop offset)).2 with
      | some e =>
        simp only [herr] at hattachment
        exact .of_stop rfl (.nil l) fun capacity _ => ⟨_, hattachment capacity⟩
      | none =>
        simp only [herr] at hattachment
        -- and what it leaves is skipped
        obtain ⟨k, hk⟩ : ∃ k, k = offset + min (callback reader (body.drop offset)).1
            (body.drop offset).length := ⟨_, rfl⟩
        rw [← hk] at hattachment
        have hle : k ≤ body.length := by
          have hoffset := parseAttachmentReader_le hparse
          rw [hk, List.length_drop]
          omega
        have hsplit : body ++ rest = body.take k ++ (body.drop k ++ rest) := by
          rw [← List.append_assoc, List.take_append_drop]
        rw [hsplit] at h₁
        have h₂ := hV.advance h₁
        rw [List.length_take, Nat.min_eq_left hle] at h₂
        obtain ⟨l', hskip, h', hsame'⟩ := hV.skip h₂
        have hleft : int64 body.length - (k : Int) = ((body.drop k).length : Int) := by
          rw [int64_of_lt hlen, List.length_drop]
          omega
        rw [hleft] at hattachment
        refine .of_none rfl (.skip (.of_eq fun capacity => ?_) (.nil l'))
          ⟨h', (hsame.trans (same_advance _ _ _)).trans hsame'⟩
        rw [hattachment, skipAttachment, hskip]

theorem turn_reserved (hV : Steady V) (h : V (frame opReserved body ++ rest) l)
    (hlen : body.length < maxInt32) (hmax : l.opts.Admits body.length) :
    ∃ l', ∀ capacity, l.turn D capacity = (.fail .error (.text "invalid zero opcode"), l') := by
  unfold maxInt32 at hlen
  obtain ⟨l₁, h₁, hsame, hturn⟩ := turn_frame (D := D) hV h (by omega) hmax
  obtain ⟨l₂, hread, h₂, hsame₂⟩ := hV.read h₁
  refine ⟨l₂, fun capacity => ?_⟩
  have hchunk : ¬ (opReserved = op.CHUNK ∧ l₁.opts.emitChunks = false) := fun h => by cases h.1
  have hfits : ¬ (capacity < body.length ∧ ¬ body.length < maxInt32) := fun h => h.2 hlen
  have htype : tokenType? opReserved = none := rfl
  rw [hturn, if_neg hchunk, if_neg (by decide), recordTurn, if_neg hfits, hread]
  simp only [htype, if_true]

theorem follows_plain (hV : Shown V) (h : V (frame opcode body ++ rest) l)
    (hlen : body.length < 2 ^ 63) (hmax : l.opts.Admits body.length)
    (hattachment : opcode ≠ op.ATTACHMENT) (hchunk : opcode = op.CHUNK → l.opts.emitChunks = true) :
    Follows D l (plainRun opcode body) fun l' => V rest l' ∧ Same l l' := by
  unfold plainRun
  by_cases hlarge : maxInt32 ≤ body.length
  · rw [if_pos hlarge]
    obtain ⟨l₁, -, hsame, hturn⟩ := turn_frame (D := D) hV.toSteady h (by omega) hmax
    have hopen : ¬ (opcode = op.CHUNK ∧ l₁.opts.emitChunks = false) := by
      rintro ⟨hop, hemit⟩
      rw [hsame.1, hchunk hop] at hemit
      cases hemit
    refine .of_stop rfl (.nil l) fun capacity hcapacity => ⟨l₁, ?_⟩
    rw [hturn, if_neg hopen, if_neg hattachment, recordTurn, if_pos ⟨by omega, by omega⟩]
  · rw [if_neg hlarge]
    cases htype : tokenType? opcode with
    | some type =>
      obtain ⟨l', h', hsame, hturn⟩ :=
        turn_token (D := D) hV.toSteady h (by omega) hmax htype hchunk
      exact .of_none rfl (.token hturn (.nil l')) ⟨h', hsame⟩
    | none =>
      simp only
      by_cases hreserved : opcode = opReserved
      · subst hreserved
        obtain ⟨l', hturn⟩ := turn_reserved (D := D) hV.toSteady h (by omega) hmax
        rw [if_pos rfl]
        exact .of_stop rfl (.nil l) fun capacity _ => ⟨l', hturn capacity⟩
      · obtain ⟨l', h', hsame, hturn⟩ :=
          turn_unknown (D := D) hV.toSteady h (by omega) hmax htype hattachment hreserved
        rw [if_neg hreserved]
        exact .of_none rfl (.skip (fun capacity => ⟨_, hturn capacity, fun hcapacity =>
          Nat.max_lt.mpr ⟨hcapacity, by omega⟩⟩) (.nil l')) ⟨h', hsame⟩

/-- **One record** that is not a chunk to be opened. -/
theorem follows_record (hV : Shown V) {r : UInt8 × Bytes} (h : V (frame r.1 r.2 ++ rest) l)
    (hlen : r.2.length < 2 ^ 63) (hchunk : r.1 = op.CHUNK → l.opts.emitChunks = true) :
    Follows D l (recordRun l.opts r) fun l' => V rest l' ∧ Same l l' := by
  unfold recordRun limitedRun
  by_cases hexceeds : exceeds l.opts r.2.length
  · have hsplit : frame r.1 r.2 ++ rest = (r.1 :: le 8 r.2.length) ++ (r.2 ++ rest) := by
      simp [frame]
    rw [hsplit] at h
    obtain ⟨l', hturn⟩ := turn_exceeds (D := D) hV.toSteady h (by omega) hexceeds
    rw [if_pos hexceeds]
    exact .of_stop rfl (.nil l) fun capacity _ => ⟨l', hturn capacity⟩
  · have hmax := admits_of_not_exceeds hexceeds
    rw [if_neg hexceeds]
    by_cases hattachment : r.1 = op.ATTACHMENT
    · rw [if_pos hattachment]
      rw [hattachment] at h
      exact follows_attachment hV h hlen hmax
    · rw [if_neg hattachment]
      exact follows_plain hV h hlen hmax hattachment hchunk

/-- What becomes of records one after the other. -/
def runs {α : Type} (run : α → Run) : List α → Run
  | [] => .nil
  | a :: as => (run a).andThen (runs run as)

/-- **Records in a row.** -/
theorem follows_records (hV : Shown V) (recs : List (UInt8 × Bytes))
    (h : V (frames recs ++ rest) l)
    (hrecs : ∀ r ∈ recs, r.2.length < 2 ^ 63 ∧ (r.1 = op.CHUNK → l.opts.emitChunks = true)) :
    Follows D l (runs (recordRun l.opts) recs) fun l' => V rest l' ∧ Same l l' := by
  induction recs generalizing l with
  | nil => exact .of_none rfl (.nil l) ⟨h, .refl l⟩
  | cons r recs ih =>
    have hview : V (frame r.1 r.2 ++ (frames recs ++ rest)) l := by
      rw [← List.append_assoc]
      exact h
    obtain ⟨hlen, hchunk⟩ := hrecs r List.mem_cons_self
    refine (follows_record hV hview hlen hchunk).andThen fun l' ⟨h', hsame⟩ => ?_
    rw [← hsame.1]
    refine (ih h' fun r hr => ?_).mono fun l'' ⟨h'', hsame'⟩ => ⟨h'', hsame.trans hsame'⟩
    rw [hsame.1]
    exact hrecs r (List.mem_cons_of_mem _ hr)

end

/-! ## In a chunk -/

/-- The view of a chunk that is in memory, or is not. -/
def Inside (outer : Bytes) (inMemory : Bool) (bytes : Bytes) (l : Lexer) : Prop :=
  InChunk outer bytes l ∧ l.buffered = inMemory

theorem buffered_advance (l : Lexer) (k : Nat) (ended : Bool) :
    (l.advance k ended).buffered = l.buffered := by
  obtain ⟨source, reader, room, opts⟩ := l
  cases reader <;> rfl

theorem buffered_skipReader (l : Lexer) (n : Int) : (l.skipReader n).2.buffered = l.buffered := by
  have hdiscard : (l.discard n).2.buffered = l.buffered := by
    unfold discard
    split <;> exact buffered_advance _ _ _
  obtain ⟨source, reader, room, opts⟩ := l
  cases reader with
  | base =>
    unfold skipReader
    simp only
    split
    · cases seek source.pos n <;> rfl
    · exact hdiscard
  | buffer data pos =>
    unfold skipReader
    simp only
    cases seek pos n <;> rfl
  | _ => exact hdiscard

theorem shown_inside (outer : Bytes) (inMemory : Bool) : Shown (Inside outer inMemory) where
  read h := ⟨_, readFull_of_le h.1.available, ⟨h.1.advance, (buffered_advance _ _ _).trans h.2⟩,
    same_advance _ _ _⟩
  skip {x y l} h := by
    obtain ⟨l', hskip, h', hsame⟩ := (steady_inChunk outer).skip h.1
    have hbuffered := buffered_skipReader l x.length
    rw [hskip] at hbuffered
    exact ⟨l', hskip, ⟨h', hbuffered.trans h.2⟩, hsame⟩
  available h := h.1.available
  advance h := ⟨h.1.advance, (buffered_advance _ _ _).trans h.2⟩

/-- What becomes of a record in a chunk. -/
def innerRun (opts : LexerOptions) (r : UInt8 × Bytes) : Run :=
  if r.1 = op.CHUNK then limitedRun opts r.2.length (.fail (.text "detected nested chunk"))
  else recordRun opts r

theorem follows_nested {n : Nat} (h : InChunk outer ((op.CHUNK :: le 8 n) ++ rest) l)
    (hn : n < 2 ^ 64) (hemit : l.opts.emitChunks = false) :
    Follows D l (limitedRun l.opts n (.fail (.text "detected nested chunk"))) P := by
  unfold limitedRun
  by_cases hexceeds : exceeds l.opts n
  · obtain ⟨l', hturn⟩ := turn_exceeds (D := D) (steady_inChunk outer) h hn hexceeds
    rw [if_pos hexceeds]
    exact .of_stop rfl (.nil l) fun capacity _ => ⟨l', hturn capacity⟩
  · obtain ⟨l₁, h₁, hsame, hturn⟩ :=
      turn_head (D := D) (steady_inChunk outer) h hn (admits_of_not_exceeds hexceeds)
    have hopen : op.CHUNK = op.CHUNK ∧ l₁.opts.emitChunks = false := ⟨rfl, by rw [hsame.1, hemit]⟩
    rw [if_neg hexceeds]
    refine .of_stop rfl (.nil l) fun capacity _ => ⟨l₁, ?_⟩
    have hload : loadChunk D n l₁ = (.err (.text "detected nested chunk"), l₁) := by
      unfold loadChunk
      rw [Exec.bind_ok (Exec.get_run l₁), h₁.inChunk, if_pos rfl]
      rfl
    rw [hturn, if_pos hopen, chunkTurn, hload]

/-- **Records in a chunk.** -/
theorem follows_inner {inMemory : Bool} (inner : List (UInt8 × Bytes))
    (h : Inside outer inMemory (frames inner ++ rest) l) (hemit : l.opts.emitChunks = false)
    (hinner : ∀ r ∈ inner, r.2.length < 2 ^ 63) :
    Follows D l (runs (innerRun l.opts) inner) fun l' =>
      Inside outer inMemory rest l' ∧ Same l l' := by
  induction inner generalizing l with
  | nil => exact .of_none rfl (.nil l) ⟨h, .refl l⟩
  | cons r inner ih =>
    have hview : Inside outer inMemory (frame r.1 r.2 ++ (frames inner ++ rest)) l := by
      rw [← List.append_assoc]
      exact h
    have hlen := hinner r List.mem_cons_self
    have hone : Follows D l (innerRun l.opts r) fun l' =>
        Inside outer inMemory (frames inner ++ rest) l' ∧ Same l l' := by
      unfold innerRun
      by_cases hchunk : r.1 = op.CHUNK
      · have hsplit : frame r.1 r.2 ++ (frames inner ++ rest) =
            (op.CHUNK :: le 8 r.2.length) ++ (r.2 ++ (frames inner ++ rest)) := by
          rw [hchunk]
          simp [frame]
        rw [hsplit] at hview
        rw [if_pos hchunk]
        exact follows_nested hview.1 (by omega) hemit
      · rw [if_neg hchunk]
        exact follows_record (shown_inside outer inMemory) hview hlen fun h => absurd h hchunk
    refine hone.andThen fun l' h' => ?_
    rw [← h'.2.1]
    refine (ih h'.1 (by rw [h'.2.1]; exact hemit) fun r hr =>
      hinner r (List.mem_cons_of_mem _ hr)).mono fun l'' h'' => ⟨h''.1, h'.2.trans h''.2⟩

/-! ## A record that is cut off -/

/-- What becomes of the first bytes of a record at the end of a chunk.  An attachment is skipped;
in memory this goes past the end unnoticed. -/
def cutRun (opts : LexerOptions) (r : UInt8 × Bytes) (cut : Bytes) : Run :=
  if cut.length < 9 then .nil
  else limitedRun opts r.2.length
    (if r.1 = op.CHUNK then .fail (.text "detected nested chunk")
    else if r.1 = op.ATTACHMENT then
      if opts.validateChunkCRCs then .nil
      else .fail (.wrapped "failed to consume unhandled attachment data" .eof)
    else if maxInt32 ≤ r.2.length then
      .fail (.wrapped ("failed to allocate " ++ toString r.2.length ++ " bytes for " ++
        opcodeName r.1 ++ " token") errLengthOutOfRange)
    else if cut.length = 9 then .fail .eof
    else .fail (.truncatedRecord r.1 (cut.length - 9) (.ofNat r.2.length)))

theorem emits_past {n : Nat} (h : InChunk outer bytes l) (hbuffered : l.buffered = true)
    (hn : bytes.length < n) (hlt : n < 2 ^ 62) :
    ∃ l₁ l', l.skipReader n = (.ok (), l₁) ∧ AtBase outer l' ∧ Same l l' ∧
      ∀ capacity, l₁.turn D capacity = (.again capacity, l') := by
  cases h with
  | limited hreader hrest hle hlt' | decoder hreader hbytes herror houter hle hlt' =>
    unfold buffered at hbuffered
    rw [hreader] at hbuffered
    cases hbuffered
  | @buffer data pos hreader hbytes hpos hdata hrest hle hlt' =>
    have hlen := congrArg List.length hbytes
    rw [List.length_drop] at hlen
    refine ⟨{ l with reader := .buffer data (pos + n) }, { l with reader := .base }, ?_,
      ⟨rfl, hrest, hle, hlt'⟩, ⟨rfl, rfl⟩, fun capacity => ?_⟩
    · unfold skipReader
      rw [hreader]
      simp only [seek_eq_ok (show pos + n < 2 ^ 63 by omega)]
    · have hnil : data.drop (pos + n) = [] := List.drop_of_length_le (by omega)
      have hread : ({ l with reader := .buffer data (pos + n) } : Lexer).readFull 9 =
          ([], some .eof, { l with reader := .buffer data (pos + n + 0) }) := by
        unfold readFull available final advance
        simp only [hnil]
        rfl
      have heof : (Error.is .eof .eof || Error.is .unexpectedEOF .eof) = true := by decide
      unfold turn
      rw [hread]
      simp only [endTurn, Lexer.inChunk, heof, Bool.and_self, if_true]

/-- **A record that is cut off** at the end of a chunk. -/
theorem follows_cut {cut : Bytes} (h : Inside outer l.opts.validateChunkCRCs cut l)
    (hstart : cut <+: frame r.1 r.2) (hproper : cut ≠ frame r.1 r.2) (hlen : r.2.length < 2 ^ 62)
    (hcallback : r.1 = op.ATTACHMENT → l.opts.attachmentCallback = none)
    (hemit : l.opts.emitChunks = false) :
    Follows D l (cutRun l.opts r cut) fun l' => AtBase outer l' ∧ Same l l' := by
  unfold cutRun
  by_cases hshort : cut.length < 9
  · obtain ⟨l', h', hsame, hturn⟩ := turn_end (D := D) h.1 hshort
    rw [if_pos hshort]
    exact .of_none rfl (.skip (.of_eq hturn) (.nil l')) ⟨h', hsame⟩
  rw [if_neg hshort]
  -- the header is there, and a part of the body
  have hframe : frame r.1 r.2 = (r.1 :: le 8 r.2.length) ++ r.2 := rfl
  have hnine : (r.1 :: le 8 r.2.length).length = 9 := by simp
  obtain ⟨part, hcut, hpart⟩ : ∃ part, cut = (r.1 :: le 8 r.2.length) ++ part ∧
      part.length < r.2.length := by
    obtain ⟨more, hmore⟩ := hstart
    rw [hframe] at hmore hproper
    rcases List.append_eq_append_iff.mp hmore with ⟨as, has, -⟩ | ⟨part, hcut, hbody⟩
    · have hlength := congrArg List.length has
      rw [List.length_append, hnine] at hlength
      obtain rfl : as = [] := List.eq_nil_of_length_eq_zero (by omega)
      rw [List.append_nil] at has
      refine ⟨[], by rw [List.append_nil, has], ?_⟩
      exact List.length_pos_iff.mpr fun hnil => hproper
        (has.symm.trans ((List.append_nil _).symm.trans (congrArg _ hnil.symm)))
    · refine ⟨part, hcut, ?_⟩
      have hmoreLen : more ≠ [] := fun hnil => hproper
        (hcut.trans (congrArg _ ((List.append_nil part).symm.trans
          ((congrArg _ hnil.symm).trans hbody.symm))))
      rw [hbody, List.length_append]
      exact Nat.lt_add_of_pos_right (List.length_pos_iff.mpr hmoreLen)
  have hcutlen : cut.length = 9 + part.length := by rw [hcut, List.length_append, hnine]
  have hview := h.1
  rw [hcut] at hview
  by_cases hchunk : r.1 = op.CHUNK
  · rw [if_pos hchunk]
    rw [hchunk] at hview
    exact follows_nested hview (by omega) hemit
  rw [if_neg hchunk]
  unfold limitedRun
  by_cases hexceeds : exceeds l.opts r.2.length
  · obtain ⟨l', hturn⟩ := turn_exceeds (D := D) (steady_inChunk outer) hview (by omega) hexceeds
    rw [if_pos hexceeds]
    exact .of_stop rfl (.nil l) fun capacity _ => ⟨l', hturn capacity⟩
  rw [if_neg hexceeds]
  have hviewed := h
  rw [hcut] at hviewed
  obtain ⟨l₁, ⟨h₁, hbuffered⟩, hsame, hturn⟩ := turn_head (D := D)
    (shown_inside outer l.opts.validateChunkCRCs).toSteady hviewed (by omega)
    (admits_of_not_exceeds hexceeds)
  have hopen : ¬ (r.1 = op.CHUNK ∧ l₁.opts.emitChunks = false) := fun h => hchunk h.1
  by_cases hattachment : r.1 = op.ATTACHMENT
  · have hcallback₁ : l₁.opts.attachmentCallback = none := by
      rw [hsame.1, hcallback hattachment]
    have hskip : ∀ capacity, l.turn D capacity = l₁.skipAttachment capacity r.2.length := by
      intro capacity
      rw [hturn, if_neg hopen, if_pos hattachment, attachmentTurn, int64_of_lt (by omega)]
      simp only [hcallback₁]
    rw [if_pos hattachment]
    by_cases hvalidate : l.opts.validateChunkCRCs = true
    · rw [hvalidate] at hbuffered
      obtain ⟨l₂, l', hsought, h', hsame', hend⟩ := emits_past (D := D) h₁ hbuffered hpart hlen
      rw [if_pos hvalidate]
      refine .of_none rfl (.skip (.of_eq fun capacity => ?_) (.skip (.of_eq hend) (.nil l')))
        ⟨h', hsame.trans hsame'⟩
      rw [hskip, skipAttachment, hsought]
    · rw [if_neg hvalidate]
      have hdiscard : l₁.skipReader r.2.length =
          (.error .eof, l₁.advance part.length true) := by
        have hshort' : ¬ ((r.2.length : Int)).toNat ≤ part.length := by
          rw [Int.toNat_natCast]
          omega
        have hout : l₁.discard r.2.length = (.error .eof, l₁.advance part.length true) := by
          unfold discard
          rw [h₁.available, if_neg hshort', h₁.final]
        rw [Bool.not_eq_true _ |>.mp hvalidate] at hbuffered
        unfold skipReader
        cases h₁ with
        | limited hreader _ _ _ | decoder hreader _ _ _ _ _ =>
          rw [hreader]
          exact hout
        | buffer hreader _ _ _ _ _ _ =>
          unfold buffered at hbuffered
          rw [hreader] at hbuffered
          cases hbuffered
      refine .of_stop rfl (.nil l) fun capacity _ => ⟨l₁.advance part.length true, ?_⟩
      rw [hskip, skipAttachment, hdiscard]
  rw [if_neg hattachment]
  by_cases hlarge : maxInt32 ≤ r.2.length
  · rw [if_pos hlarge]
    refine .of_stop rfl (.nil l) fun capacity hcapacity => ⟨l₁, ?_⟩
    rw [hturn, if_neg hopen, if_neg hattachment, recordTurn, if_pos ⟨by omega, by omega⟩]
  rw [if_neg hlarge]
  have hfits : ∀ capacity, ¬ (capacity < r.2.length ∧ ¬ r.2.length < maxInt32) :=
    fun capacity h => h.2 (by omega)
  have hlonger : ¬ r.2.length ≤ part.length := by omega
  by_cases hheader : cut.length = 9
  · have hnil : part = [] := List.eq_nil_of_length_eq_zero (by omega)
    have hread : l₁.readFull r.2.length = ([], some .eof, l₁.advance 0 true) := by
      unfold readFull
      rw [h₁.available, if_neg hlonger, h₁.final, hnil]
      rfl
    rw [if_pos hheader]
    refine .of_stop rfl (.nil l) fun capacity _ => ⟨l₁.advance 0 true, ?_⟩
    rw [hturn, if_neg hopen, if_neg hattachment, recordTurn, if_neg (hfits capacity), hread]
    rfl
  · have hsome : part ≠ [] := fun hnil => by
      rw [hnil, List.length_nil] at hcutlen
      omega
    have hread : l₁.readFull r.2.length =
        (part, some .unexpectedEOF, l₁.advance part.length true) := by
      unfold readFull
      rw [h₁.available, if_neg hlonger, h₁.final, if_pos ⟨hsome, rfl⟩]
    have hlength : cut.length - 9 = part.length := by omega
    rw [if_neg hheader, hlength]
    refine .of_stop rfl (.nil l) fun capacity _ => ⟨l₁.advance part.length true, ?_⟩
    rw [hturn, if_neg hopen, if_neg hattachment, recordTurn, if_neg (hfits capacity), hread]
    rfl

/-! ## Top-level records -/

theorem turn_chunk_long {c : Chunk} {n : Nat}
    (h : AtBase ((op.CHUNK :: le 8 n) ++ (c.body ++ rest)) l) (hemit : l.opts.emitChunks = false)
    (hname : 24 < c.compression.length) (hshort : c.compression.length < 2 ^ 31)
    (hn : n < 2 ^ 64) (hmax : l.opts.Admits n) : Stops D l .panic := by
  obtain ⟨l₁, h₁, hsame, hturn⟩ := turn_head (D := D) steady_atBase h hn hmax
  have hopen : op.CHUNK = op.CHUNK ∧ l₁.opts.emitChunks = false := ⟨rfl, by rw [hsame.1, hemit]⟩
  -- the fields up to the name
  obtain ⟨top, htop⟩ : ∃ top, top = u64 c.messageStartTime ++ (u64 c.messageEndTime ++
      (le 8 c.uncompressedSize ++ (u32 c.uncompressedCRC ++ le 4 c.compression.length))) := ⟨_, rfl⟩
  have hsplit : c.body ++ rest =
      top ++ ((c.compression ++ le 8 c.records.length) ++ (c.records ++ rest)) := by
    simp [htop, Chunk.body, Chunk.top, putPrefixedString]
  have hlen : top.length = 32 := by simp [htop]
  have hcompression : ofLe ((top.drop 28).take 4) = c.compression.length := by
    have hdrop : top.drop 28 = le 4 c.compression.length := by
      rw [htop, ← List.append_assoc, ← List.append_assoc, ← List.append_assoc]
      exact List.drop_left' (by simp)
    rw [hdrop, List.take_of_length_le (by simp), ofLe_le_of_lt (by omega)]
  rw [hsplit] at h₁
  obtain ⟨l₂, h₂, -, hread⟩ := read_eq h₁
  have hlong : 32 < (UInt32.ofNat c.compression.length + 8).toNat := by
    rw [UInt32.toNat_add, UInt32.toNat_ofNat', show (8 : UInt32).toNat = 8 from rfl]
    omega
  have hhead : readChunkHead n l₁ = (.panic, l₂) := by
    unfold readChunkHead
    rw [Exec.bind_ok ((by rw [← hread, hlen]) : _ = (Res.ok (top, none), l₂))]
    simp only
    unfold readCompression
    simp only [hcompression]
    rw [if_pos hlong]
    rfl
  have hload : loadChunk D n l₁ = (.panic, l₂) := by
    have hin : l₁.inChunk = false := by
      unfold Lexer.inChunk
      rw [h₁.reader]
    unfold loadChunk
    rw [Exec.bind_ok (Exec.get_run l₁), hin, if_neg Bool.false_ne_true, Exec.bind_panic hhead]
  intro capacity
  refine ⟨l₂, ?_⟩
  rw [hturn, if_pos hopen, chunkTurn, hload]

/-- A top-level record: one that is not a chunk, or a chunk of the records `inner` that has the
records `behind` in the bytes behind its fields. -/
inductive Part
  | record (r : UInt8 × Bytes)
  | chunk (c : Chunk) (inner behind : List (UInt8 × Bytes))

namespace Part

/-- The record. -/
def framed : Part → UInt8 × Bytes
  | record r => r
  | chunk c _ behind => (op.CHUNK, c.body ++ frames behind)

/-- What becomes of it if chunks are emitted. -/
def emitted (opts : LexerOptions) (p : Part) : Run := recordRun opts p.framed

/-- The same with the records of a chunk in place of the chunk. -/
def expanded (opts : LexerOptions) : Part → Run
  | record r => recordRun opts r
  | chunk c inner behind =>
      limitedRun opts (c.body ++ frames behind).length (runs (innerRun opts) inner)

/-- What becomes of it if chunks are opened. -/
def opened (opts : LexerOptions) : Part → Run
  | record r => recordRun opts r
  | chunk c inner behind =>
      limitedRun opts (c.body ++ frames behind).length
        (if 24 < c.compression.length then ⟨[], some .panic⟩
        else (runs (innerRun opts) inner).andThen (runs (recordRun opts) behind))

/-- The record can be taken as a whole; a chunk is not broken, and what is in the bytes behind its
fields can be taken, too. -/
inductive Fits (D : Unpackers) (opts : LexerOptions) : Part → Prop
  | record {r : UInt8 × Bytes} (hchunk : r.1 ≠ op.CHUNK) (hlen : r.2.length < 2 ^ 63) :
      Fits D opts (.record r)
  | chunk {c : Chunk} {inner behind : List (UInt8 × Bytes)}
      (hshort : (c.body ++ frames behind).length < maxInt32)
      (hunpacks : Unpacks D opts c.compression c.records (frames inner))
      (hvalid : opts.validateChunkCRCs = true → Valid opts c (frames inner))
      (hinner : ∀ r ∈ inner, r.2.length < 2 ^ 63)
      (hbehind : ∀ r ∈ behind, r.1 ≠ op.CHUNK ∧ (recordRun opts r).stop = none) :
      Fits D opts (.chunk c inner behind)

/-- **The lexer keeps to the end of the chunk**: it does not panic over the name of the
compression, and there are no records with tokens behind the fields, if it gets there. -/
def Bounded (opts : LexerOptions) : Part → Prop
  | record _ => True
  | chunk c inner behind => ¬ exceeds opts (c.body ++ frames behind).length →
      c.compression.length ≤ 24 ∧ ((runs (innerRun opts) inner).stop = none →
        ∀ r ∈ behind, tokenType? r.1 = none)

end Part

theorem cutRun_nil (opts : LexerOptions) (r : UInt8 × Bytes) : cutRun opts r [] = .nil := rfl

theorem frame_split (opcode : UInt8) (body rest : Bytes) :
    frame opcode body ++ rest = (opcode :: le 8 body.length) ++ (body ++ rest) := by
  simp [frame]

/-- `cut` is a beginning of the record `r`, not all of it. -/
structure Broken (opts : LexerOptions) (r : UInt8 × Bytes) (cut : Bytes) : Prop where
  isPrefix : cut <+: frame r.1 r.2
  proper : cut ≠ frame r.1 r.2
  length : r.2.length < 2 ^ 62
  callback : r.1 = op.ATTACHMENT → opts.attachmentCallback = none

/-- **A chunk that is opened**: its records, and the beginning of another, if there is one. -/
theorem follows_chunk (inner : List (UInt8 × Bytes)) (r : UInt8 × Bytes) (cut : Bytes) {c : Chunk}
    {n : Nat} (h : AtBase ((op.CHUNK :: le 8 n) ++ (c.body ++ rest)) l)
    (hemit : l.opts.emitChunks = false) (hname : c.compression.length ≤ 24)
    (hlen : c.body.length < 2 ^ 63) (hn : n < 2 ^ 64) (hmax : l.opts.Admits n)
    (hunpacks : Unpacks D l.opts c.compression c.records (frames inner ++ cut))
    (hvalid : l.opts.validateChunkCRCs = true → Valid l.opts c (frames inner ++ cut))
    (hinner : ∀ r ∈ inner, r.2.length < 2 ^ 63) (hcut : Broken l.opts r cut) :
    Follows D l ((runs (innerRun l.opts) inner).andThen (cutRun l.opts r cut)) fun l' =>
      AtBase rest l' ∧ l'.opts = l.opts := by
  obtain ⟨l₁, h₁, hopts₁, hbuffered, hturn⟩ :=
    turn_chunk h hemit hname hlen hn hmax hunpacks hvalid
  have hinside : Follows D l₁ ((runs (innerRun l₁.opts) inner).andThen (cutRun l₁.opts r cut))
      fun l' => AtBase rest l' ∧ l'.opts = l₁.opts := by
    refine (follows_inner inner ⟨h₁, rfl⟩ (by rw [hopts₁]; exact hemit) hinner).andThen
      fun l₂ ⟨h₂, hsame⟩ => ?_
    rw [hbuffered, ← hopts₁] at h₂
    rw [← hsame.1] at h₂ ⊢
    refine (follows_cut h₂ hcut.isPrefix hcut.proper hcut.length (fun hop => ?_) ?_).mono
      fun l' ⟨h', hsame'⟩ => ⟨h', hsame'.1⟩
    · rw [hsame.1, hopts₁]
      exact hcut.callback hop
    · rw [hsame.1, hopts₁]
      exact hemit
  rw [hopts₁] at hinside
  obtain ⟨l', hemits, hend⟩ := hinside
  exact ⟨l', .skip (.of_eq hturn) hemits, hend⟩

theorem broken_nil (opts : LexerOptions) : Broken opts (op.MESSAGE, []) [] where
  isPrefix := List.nil_prefix
  proper := by decide
  length := by decide
  callback h := absurd h (by decide)

/-- **A top-level record, with chunks opened.** -/
theorem follows_opened {p : Part} (hp : p.Fits D l.opts)
    (h : AtBase (frame p.framed.1 p.framed.2 ++ rest) l) (hemit : l.opts.emitChunks = false) :
    Follows D l (p.opened l.opts) fun l' => AtBase rest l' ∧ l'.opts = l.opts := by
  cases hp with
  | record hchunk hlen =>
    exact (follows_record shown_atBase h hlen fun hop => absurd hop hchunk).mono
      fun l' h' => ⟨h'.1, h'.2.1⟩
  | @chunk c inner behind hshort hunpacks hvalid hinner hbehind =>
    have hsmall := hshort
    unfold maxInt32 at hsmall
    have hsum := @List.length_append _ c.body (frames behind)
    have hview : AtBase ((op.CHUNK :: le 8 (c.body ++ frames behind).length) ++
        (c.body ++ (frames behind ++ rest))) l := by
      rw [← List.append_assoc c.body, ← frame_split]
      exact h
    show Follows D l (limitedRun l.opts _ _) _
    unfold limitedRun
    by_cases hexceeds : exceeds l.opts (c.body ++ frames behind).length
    · obtain ⟨l', hturn⟩ := turn_exceeds (D := D) steady_atBase hview (by omega) hexceeds
      rw [if_pos hexceeds]
      exact .of_stop rfl (.nil l) fun capacity _ => ⟨l', hturn capacity⟩
    have hmax := admits_of_not_exceeds hexceeds
    rw [if_neg hexceeds]
    by_cases hname : 24 < c.compression.length
    · have hcompression : c.compression.length ≤ c.body.length := by
        simp only [Chunk.body, Chunk.top, putPrefixedString, List.length_append]
        omega
      rw [if_pos hname]
      exact .of_stop rfl (.nil l)
        (turn_chunk_long hview hemit hname (by omega) (by omega) hmax)
    · rw [if_neg hname]
      have hopen := follows_chunk inner (op.MESSAGE, []) [] hview hemit (by omega) (by omega)
        (by omega) hmax (by rw [List.append_nil]; exact hunpacks)
        (by rw [List.append_nil]; exact hvalid) hinner (broken_nil l.opts)
      have hwhole : ∀ run : Run, run.andThen .nil = run := by
        intro run
        obtain ⟨ts, stop⟩ := run
        cases stop with
        | none =>
          rw [Run.andThen_of_none rfl]
          show (⟨ts ++ [], none⟩ : Run) = _
          rw [List.append_nil]
        | some stop => rfl
      rw [cutRun_nil, hwhole] at hopen
      refine hopen.andThen fun l₁ h₁ => ?_
      rw [← h₁.2]
      refine (follows_records shown_atBase behind h₁.1 fun r hr => ?_).mono
        fun l' h' => ⟨h'.1, h'.2.1⟩
      have hle := length_le_frames hr
      exact ⟨by omega, fun hop => absurd hop (hbehind r hr).1⟩

/-- **Top-level records, with chunks opened.** -/
theorem follows_parts (parts : List Part) (hparts : ∀ p ∈ parts, p.Fits D l.opts)
    (h : AtBase (frames (parts.map Part.framed) ++ rest) l) (hemit : l.opts.emitChunks = false) :
    Follows D l (runs (Part.opened l.opts) parts) fun l' => AtBase rest l' ∧ l'.opts = l.opts := by
  induction parts generalizing l with
  | nil => exact .of_none rfl (.nil l) ⟨h, rfl⟩
  | cons p parts ih =>
    have hview : AtBase (frame p.framed.1 p.framed.2 ++
        (frames (parts.map Part.framed) ++ rest)) l := by
      rw [← List.append_assoc]
      exact h
    refine (follows_opened (hparts p List.mem_cons_self) hview hemit).andThen
      fun l' ⟨h', hopts⟩ => ?_
    rw [← hopts]
    refine ih (fun q hq => ?_) h' (by rw [hopts]; exact hemit)
    rw [hopts]
    exact hparts q (List.mem_cons_of_mem _ hq)

/-! ## From runs to calls -/

/-- The error with which calls of `Next` come to an end. -/
def Run.ending (run : Run) : TokenType × Error :=
  match run.stop with
  | some (.fail type e) => (type, e)
  | _ => (.error, .eof)

/-- Calls of `Next` return the tokens of the run, and then its error, or `io.EOF`; the buffers
that are given to them are not large ones. -/
def Ends (D : Unpackers) (l : Lexer) (run : Run) : Prop :=
  ∀ capacities : Nat → Nat, (∀ i, capacities i < maxInt32) →
    Lexes D capacities l run.tokens run.ending.1 run.ending.2

theorem turn_nil (h : AtBase [] l) : Stops D l (.fail .error .eof) := by
  have hread : l.readFull 9 = ([], some .eof, l.advance 0 true) := by
    have hfinal : l.final = .eof := by
      unfold final
      rw [h.reader]
    unfold readFull
    rw [h.available, hfinal]
    rfl
  have hbase : (l.advance 0 true).inChunk = false := by
    unfold Lexer.inChunk Lexer.advance
    rw [h.reader]
  intro capacity _
  refine ⟨l.advance 0 true, ?_⟩
  unfold turn
  rw [hread]
  simp only [endTurn, hbase, Bool.false_and, Bool.false_eq_true, if_false]
  rfl

theorem stops_tail (htail : tail = [] ∨ tail = MAGIC) (h : AtBase tail l) :
    Stops D l (.fail .error .eof) := by
  rcases htail with rfl | rfl
  · exact turn_nil h
  · obtain ⟨l', hturn⟩ := turn_magic (D := D) h
    exact fun capacity _ => ⟨l', hturn capacity⟩

theorem Follows.ends (h : Follows D l run P)
    (hend : run.stop = none → ∀ l', P l' → Stops D l' (.fail .error .eof))
    (hpanic : run.stop ≠ some .panic) : Ends D l run := by
  intro capacities hlt
  obtain ⟨l', hemits, hstops⟩ := h
  unfold Run.ending
  cases hstop : run.stop with
  | none =>
    rw [hstop] at hstops
    exact hemits.lexes_of_lt (hend hstop l' hstops) hlt
  | some stop =>
    rw [hstop] at hstops
    cases stop with
    | fail type e => exact hemits.lexes_of_lt hstops hlt
    | panic => exact absurd hstop hpanic

theorem Lexes.of_again {capacity : Nat} {capacities : Nat → Nat} {l₁ : Lexer} {ts : List Token}
    {type : TokenType} {e : Error} (hturn : l.turn D (capacities 0) = (.again capacity, l₁))
    (h : Lexes D capacities l ts type e) :
    Lexes D (fun i => if i = 0 then capacity else capacities i) l₁ ts type e := by
  have hreturns : ∀ {r : Result} {l' : Lexer}, Returns D (capacities 0) l r l' →
      Returns D capacity l₁ r l' := by
    rintro r l' ⟨fuel, hnext⟩
    cases fuel with
    | zero => cases hnext
    | succ fuel =>
      rw [next, hturn] at hnext
      exact ⟨fuel, hnext⟩
  cases h with
  | fail h => exact .fail (hreturns h)
  | token h hrest => exact .token (hreturns h) hrest

/-- **A lexer that is followed to a panic** does not return an error. -/
theorem Emits.not_lexes {ts ts' : List Token} {type : TokenType} {e : Error}
    (h : Emits D l ts l') (hpanic : Stops D l' .panic) {capacities : Nat → Nat} :
    ¬ Lexes D capacities l ts' type e := by
  induction h generalizing ts' capacities with
  | nil l =>
    obtain ⟨l₁, hturn⟩ := hpanic (capacities 0)
    have hreturns : Returns D (capacities 0) l .panic l₁ := by
      refine ⟨1, ?_⟩
      rw [next, hturn]
    intro hlexes
    cases hlexes with
    | fail h | token h hrest => cases (h.unique hreturns).1
  | skip h hrest ih =>
    obtain ⟨capacity, hturn, -⟩ := h (capacities 0)
    exact fun hlexes => ih hpanic (hlexes.of_again hturn)
  | @token l l₁ l' t ts h hrest ih =>
    have hreturns : Returns D (capacities 0) l (.token t) l₁ := by
      refine ⟨1, ?_⟩
      rw [next, h]
    intro hlexes
    cases hlexes with
    | fail h' => cases (h'.unique hreturns).1
    | token h' hrest' =>
      obtain ⟨-, rfl⟩ := h'.unique hreturns
      exact ih hpanic hrest'

theorem Follows.not_ends {run' : Run} (h : Follows D l run P)
    (hpanic : run.stop = some .panic) : ¬ Ends D l run' := by
  obtain ⟨l', hemits, hend⟩ := h
  rw [hpanic] at hend
  exact fun hends => hemits.not_lexes hend (hends (fun _ => 0) fun _ => by decide)

theorem Ends.unique {run' : Run} (h : Ends D l run) (h' : Ends D l run') :
    run.tokens = run'.tokens ∧ run.ending = run'.ending := by
  obtain ⟨htokens, htype, he⟩ := (h (fun _ => 0) fun _ => by decide).unique
    (h' (fun _ => 0) fun _ => by decide)
  exact ⟨htokens, Prod.ext htype he⟩

/-! ## Both lexers -/

/-- **All chunks that the lexer comes to are bounded.** -/
def Clean (opts : LexerOptions) : List Part → Prop
  | [] => True
  | p :: parts => p.Bounded opts ∧ ((p.expanded opts).stop = none → Clean opts parts)

theorem tokens_attachmentRun (opts : LexerOptions) (body : Bytes) :
    (attachmentRun opts body).tokens = [] := by
  unfold attachmentRun
  split
  · rfl
  · split
    · rfl
    · split <;> rfl

theorem tokens_recordRun_eq_nil (hstop : (recordRun opts r).stop = none) :
    (recordRun opts r).tokens = [] ↔ tokenType? r.1 = none := by
  unfold recordRun limitedRun at hstop ⊢
  by_cases hexceeds : exceeds opts r.2.length
  · rw [if_pos hexceeds] at hstop
    cases hstop
  rw [if_neg hexceeds] at hstop ⊢
  by_cases hattachment : r.1 = op.ATTACHMENT
  · rw [if_pos hattachment, hattachment]
    exact ⟨fun _ => rfl, fun _ => tokens_attachmentRun opts r.2⟩
  rw [if_neg hattachment] at hstop ⊢
  unfold plainRun at hstop ⊢
  by_cases hlarge : maxInt32 ≤ r.2.length
  · rw [if_pos hlarge] at hstop
    cases hstop
  rw [if_neg hlarge]
  cases tokenType? r.1 with
  | some type => exact ⟨fun h => (by cases h), fun h => (by cases h)⟩
  | none =>
    refine ⟨fun _ => rfl, fun _ => ?_⟩
    simp only
    split <;> rfl

theorem runs_recordRun {recs : List (UInt8 × Bytes)}
    (hrecs : ∀ r ∈ recs, (recordRun opts r).stop = none) :
    (runs (recordRun opts) recs).stop = none ∧
      ((runs (recordRun opts) recs).tokens = [] ↔ ∀ r ∈ recs, tokenType? r.1 = none) := by
  induction recs with
  | nil => exact ⟨rfl, fun _ r h => (by cases h), fun _ => rfl⟩
  | cons r recs ih =>
    have hstop := hrecs r List.mem_cons_self
    obtain ⟨hrest, htokens⟩ := ih fun x hx => hrecs x (List.mem_cons_of_mem _ hx)
    rw [runs, Run.andThen_of_none hstop]
    refine ⟨hrest, ?_⟩
    show _ ++ _ = [] ↔ _
    rw [List.append_eq_nil_iff, tokens_recordRun_eq_nil hstop, htokens, List.forall_mem_cons]

theorem Part.opened_eq {p : Part} (hp : p.Fits D opts) (h : p.Bounded opts) :
    p.opened opts = p.expanded opts := by
  cases hp with
  | record hchunk hlen => rfl
  | @chunk c inner behind hshort hunpacks hvalid hinner hbehind =>
    show limitedRun _ _ _ = limitedRun _ _ _
    unfold limitedRun
    by_cases hexceeds : exceeds opts (c.body ++ frames behind).length
    · rw [if_pos hexceeds, if_pos hexceeds]
    obtain ⟨hname, hnone⟩ := h hexceeds
    rw [if_neg hexceeds, if_neg hexceeds, if_neg (by omega)]
    cases hstop : (runs (innerRun opts) inner).stop with
    | some stop => exact Run.andThen_of_stop hstop
    | none =>
      obtain ⟨hrest, htokens⟩ := runs_recordRun fun r hr => (hbehind r hr).2
      rw [Run.andThen_of_none hstop, hrest, htokens.mpr (hnone hstop), List.append_nil, ← hstop]

theorem runs_opened_eq (parts : List Part) (hparts : ∀ p ∈ parts, p.Fits D opts)
    (h : Clean opts parts) : runs (Part.opened opts) parts = runs (Part.expanded opts) parts := by
  induction parts with
  | nil => rfl
  | cons p parts ih =>
    obtain ⟨hbounded, hclean⟩ := h
    rw [runs, runs, Part.opened_eq (hparts p List.mem_cons_self) hbounded]
    cases hstop : (p.expanded opts).stop with
    | some stop => rw [Run.andThen_of_stop hstop, Run.andThen_of_stop hstop]
    | none => rw [ih (fun q hq => hparts q (List.mem_cons_of_mem _ hq)) (hclean hstop)]

/-- **Opened parts have all tokens of expanded ones**, and if they have no others all chunks are
bounded. -/
theorem length_opened (parts : List Part) (hparts : ∀ p ∈ parts, p.Fits D opts)
    (hpanic : (runs (Part.opened opts) parts).stop ≠ some .panic) :
    (runs (Part.expanded opts) parts).tokens.length ≤
        (runs (Part.opened opts) parts).tokens.length ∧
      ((runs (Part.opened opts) parts).tokens.length ≤
        (runs (Part.expanded opts) parts).tokens.length → Clean opts parts) := by
  induction parts with
  | nil => exact ⟨Nat.le_refl _, fun _ => trivial⟩
  | cons p parts ih =>
    replace ih := ih fun q hq => hparts q (List.mem_cons_of_mem _ hq)
    -- if a part becomes the same, the rest decides
    have hsame : p.Bounded opts → (runs (Part.expanded opts) (p :: parts)).tokens.length ≤
        (runs (Part.opened opts) (p :: parts)).tokens.length ∧
      ((runs (Part.opened opts) (p :: parts)).tokens.length ≤
        (runs (Part.expanded opts) (p :: parts)).tokens.length → Clean opts (p :: parts)) := by
      intro hbounded
      have heq := Part.opened_eq (hparts p List.mem_cons_self) hbounded
      rw [runs, heq] at hpanic
      rw [runs, runs, heq]
      cases hstop : (p.expanded opts).stop with
      | some stop =>
        rw [Run.andThen_of_stop hstop, Run.andThen_of_stop hstop]
        exact ⟨Nat.le_refl _, fun _ => ⟨hbounded, fun h => by rw [hstop] at h; cases h⟩⟩
      | none =>
        rw [Run.andThen_of_none hstop] at hpanic ⊢
        rw [Run.andThen_of_none hstop]
        obtain ⟨hle, hclean⟩ := ih hpanic
        simp only [List.length_append]
        exact ⟨by omega, fun h => ⟨hbounded, fun _ => hclean (by omega)⟩⟩
    cases hparts p List.mem_cons_self with
    | record hchunk hlen => exact hsame trivial
    | @chunk c inner behind hshort hunpacks hvalid hinner hbehind =>
      by_cases hexceeds : exceeds opts (c.body ++ frames behind).length
      · exact hsame fun h => absurd hexceeds h
      have hopened : (Part.chunk c inner behind).opened opts =
          if 24 < c.compression.length then ⟨[], some .panic⟩
          else (runs (innerRun opts) inner).andThen (runs (recordRun opts) behind) :=
        if_neg hexceeds
      by_cases hname : 24 < c.compression.length
      · rw [runs, hopened, if_pos hname] at hpanic
        exact absurd rfl hpanic
      cases hstop : (runs (innerRun opts) inner).stop with
      | some stop => exact hsame fun _ => ⟨by omega, fun h => by rw [hstop] at h; cases h⟩
      | none =>
        obtain ⟨hrest, htokens⟩ := runs_recordRun fun r hr => (hbehind r hr).2
        have hexpanded : (Part.chunk c inner behind).expanded opts = runs (innerRun opts) inner :=
          if_neg hexceeds
        rw [if_neg hname, Run.andThen_of_none hstop, hrest] at hopened
        rw [runs, hopened, Run.andThen_of_none rfl] at hpanic
        rw [runs, runs, hopened, hexpanded, Run.andThen_of_none hstop, Run.andThen_of_none rfl]
        obtain ⟨hle, hclean⟩ := ih hpanic
        simp only [List.length_append]
        refine ⟨by omega, fun h => ⟨fun _ => ⟨by omega, fun _ => htokens.mp ?_⟩,
          fun _ => hclean (by omega)⟩⟩
        exact List.eq_nil_of_length_eq_zero (by omega)

/-- A file of top-level records. -/
def fileOf (opts : LexerOptions) (recs : List (UInt8 × Bytes)) (tail : Bytes) : Bytes :=
  opts.leading ++ (frames recs ++ tail)

/-- **A lexer that opens chunks returns the tokens of one that emits them**, with the records of
each chunk in place of the chunk, and the same error. -/
def Agree (D : Unpackers) (opts : LexerOptions) (parts : List Part) (tail : Bytes) (seeks : Bool) :
    Prop :=
  ∃ on off, newLexer ⟨fileOf opts (parts.map Part.framed) tail, 0, seeks⟩
      { opts with emitChunks := true } = .ok on ∧
    newLexer ⟨fileOf opts (parts.map Part.framed) tail, 0, seeks⟩ opts = .ok off ∧
    Ends D on (runs (Part.emitted opts) parts) ∧ Ends D off (runs (Part.expanded opts) parts)

theorem recordRun_ne_panic (r : UInt8 × Bytes) : (recordRun opts r).stop ≠ some .panic := by
  intro h
  unfold recordRun limitedRun at h
  split at h
  · cases h
  · split at h
    · unfold attachmentRun at h
      split at h
      · cases h
      · split at h
        · cases h
        · split at h <;> cases h
    · unfold plainRun at h
      split at h
      · cases h
      · split at h
        · cases h
        · split at h <;> cases h

theorem innerRun_ne_panic (r : UInt8 × Bytes) : (innerRun opts r).stop ≠ some .panic := by
  unfold innerRun
  split
  · unfold limitedRun
    split <;> exact fun h => by cases h
  · exact recordRun_ne_panic r

theorem runs_ne_panic {α : Type} {run : α → Run} (h : ∀ a, (run a).stop ≠ some .panic)
    (as : List α) : (runs run as).stop ≠ some .panic := by
  induction as with
  | nil => exact fun h => by cases h
  | cons a as ih =>
    rw [runs]
    cases hstop : (run a).stop with
    | none =>
      rw [Run.andThen_of_none hstop]
      exact ih
    | some stop =>
      rw [Run.andThen_of_stop hstop]
      exact h a

theorem Part.expanded_ne_panic (p : Part) : (p.expanded opts).stop ≠ some .panic := by
  cases p with
  | record r => exact recordRun_ne_panic r
  | chunk c inner behind =>
    show (limitedRun _ _ _).stop ≠ _
    unfold limitedRun
    split
    · exact fun h => by cases h
    · exact runs_ne_panic innerRun_ne_panic inner

theorem ends_emitted {parts : List Part} {on : Lexer} (htail : tail = [] ∨ tail = MAGIC)
    (hparts : ∀ p ∈ parts, p.Fits D opts)
    (hbase : AtBase (frames (parts.map Part.framed) ++ tail) on)
    (hopts : on.opts = { opts with emitChunks := true }) :
    Ends D on (runs (Part.emitted opts) parts) := by
  have hshort : ∀ r ∈ parts.map Part.framed, r.2.length < 2 ^ 63 := by
    intro r hr
    obtain ⟨p, hp, rfl⟩ := List.mem_map.mp hr
    cases hparts p hp with
    | record hchunk hlen => exact hlen
    | chunk hshort hunpacks hvalid hinner hbehind =>
      show (_ ++ _ : Bytes).length < _
      unfold maxInt32 at hshort
      omega
  have hmap : ∀ parts : List Part, runs (recordRun opts) (parts.map Part.framed) =
      runs (Part.emitted opts) parts := by
    intro parts
    induction parts with
    | nil => rfl
    | cons p parts ih =>
      rw [List.map_cons, runs, ih]
      rfl
  have hon := follows_records (D := D) shown_atBase _ hbase fun r hr =>
    ⟨hshort r hr, fun _ => by rw [hopts]⟩
  rw [hopts] at hon
  rw [← hmap]
  exact hon.ends (fun _ l' h' => stops_tail htail h'.1) (runs_ne_panic recordRun_ne_panic _)

theorem agree_iff {parts : List Part} (seeks : Bool) (hemit : opts.emitChunks = false)
    (htail : tail = [] ∨ tail = MAGIC) (hparts : ∀ p ∈ parts, p.Fits D opts)
    (hlen : (fileOf opts (parts.map Part.framed) tail).length < 2 ^ 63) :
    Agree D opts parts tail seeks ↔ Clean opts parts := by
  obtain ⟨on, hnew, hbase, hopts, -⟩ := newLexer_eq { opts with emitChunks := true }
    (fileOf opts (parts.map Part.framed) tail) seeks rfl hlen
  obtain ⟨off, hnew', hbase', hopts', -⟩ := newLexer_eq opts
    (fileOf opts (parts.map Part.framed) tail) seeks rfl hlen
  have hoff := follows_parts (D := D) parts (by rw [hopts']; exact hparts) hbase'
    (by rw [hopts']; exact hemit)
  rw [hopts'] at hoff
  have hend : (runs (Part.opened opts) parts).stop = none → ∀ l' : Lexer,
      AtBase tail l' ∧ l'.opts = opts → Stops D l' (.fail .error .eof) :=
    fun _ l' h' => stops_tail htail h'.1
  constructor
  · rintro ⟨_, off', _, hnew'', _, hends⟩
    rw [hnew'] at hnew''
    cases hnew''
    have hpanic : (runs (Part.opened opts) parts).stop ≠ some .panic :=
      fun h => hoff.not_ends h hends
    obtain ⟨htokens, -⟩ := (hoff.ends hend hpanic).unique hends
    exact (length_opened parts hparts hpanic).2 (by rw [htokens])
  · intro hclean
    have heq := runs_opened_eq parts hparts hclean
    rw [heq] at hoff hend
    exact ⟨on, off, hnew, hnew', ends_emitted htail hparts hbase hopts,
      hoff.ends hend (runs_ne_panic Part.expanded_ne_panic parts)⟩

/-! ## Chunks that end in the middle of a record -/

/-- **The cut is noticed**: the header of the record is there, and it is over the limit, or that of
a chunk, or that of an attachment of a chunk that is not in memory, or else too large or followed by
a part of its body. -/
def Caught (opts : LexerOptions) (r : UInt8 × Bytes) (cut : Bytes) : Prop :=
  9 ≤ cut.length ∧ (exceeds opts r.2.length ∨ r.1 = op.CHUNK ∨
    (r.1 = op.ATTACHMENT ∧ opts.validateChunkCRCs = false) ∨
    (r.1 ≠ op.ATTACHMENT ∧ (maxInt32 ≤ r.2.length ∨ 10 ≤ cut.length)))

section
variable {r : UInt8 × Bytes} {cut : Bytes}

theorem cutRun_of_caught (h : Caught opts r cut) :
    ∃ e, e ≠ .eof ∧ cutRun opts r cut = .fail e := by
  obtain ⟨hheader, hcases⟩ := h
  unfold cutRun limitedRun
  rw [if_neg (by omega)]
  by_cases hexceeds : exceeds opts r.2.length
  · exact ⟨_, Error.noConfusion, if_pos hexceeds⟩
  rw [if_neg hexceeds]
  by_cases hchunk : r.1 = op.CHUNK
  · exact ⟨_, Error.noConfusion, if_pos hchunk⟩
  rw [if_neg hchunk]
  by_cases hattachment : r.1 = op.ATTACHMENT
  · rw [if_pos hattachment]
    rcases hcases with h | h | ⟨-, h⟩ | ⟨h, -⟩
    · exact absurd h hexceeds
    · exact absurd h hchunk
    · rw [h]
      exact ⟨_, Error.noConfusion, rfl⟩
    · exact absurd hattachment h
  rw [if_neg hattachment]
  by_cases hlarge : maxInt32 ≤ r.2.length
  · exact ⟨_, Error.noConfusion, if_pos hlarge⟩
  rw [if_neg hlarge]
  rcases hcases with h | h | ⟨h, -⟩ | ⟨-, h | h⟩
  · exact absurd h hexceeds
  · exact absurd h hchunk
  · exact absurd h hattachment
  · exact absurd h hlarge
  · rw [if_neg (by omega)]
    exact ⟨_, Error.noConfusion, rfl⟩

theorem cutRun_of_not_caught (h : ¬ Caught opts r cut) :
    cutRun opts r cut = .nil ∨ cutRun opts r cut = .fail .eof := by
  unfold cutRun limitedRun
  by_cases hshort : cut.length < 9
  · exact .inl (if_pos hshort)
  have hcases : ∀ {p : Prop}, (p → Caught opts r cut) → ¬ p := fun hp hpos => h (hp hpos)
  have hexceeds := hcases fun hp => ⟨by omega, .inl hp⟩
  have hchunk := hcases fun hp => ⟨by omega, .inr (.inl hp)⟩
  rw [if_neg hshort, if_neg hexceeds, if_neg hchunk]
  by_cases hattachment : r.1 = op.ATTACHMENT
  · have hvalidate := hcases fun hp => ⟨by omega, .inr (.inr (.inl ⟨hattachment, hp⟩))⟩
    rw [if_pos hattachment, if_pos (by simpa using hvalidate)]
    exact .inl rfl
  · have hlarge := hcases fun hp => ⟨by omega, .inr (.inr (.inr ⟨hattachment, .inl hp⟩))⟩
    have hpart := hcases fun hp => ⟨by omega, .inr (.inr (.inr ⟨hattachment, .inr hp⟩))⟩
    rw [if_neg hattachment, if_neg hlarge, if_pos (by omega)]
    exact .inr rfl

end

/-- A chunk of the records `inner` and the beginning `cut` of the record `r`. -/
structure CutOff (D : Unpackers) (opts : LexerOptions) (c : Chunk) (inner : List (UInt8 × Bytes))
    (r : UInt8 × Bytes) (cut : Bytes) : Prop where
  short : c.body.length < maxInt32
  admits : ¬ exceeds opts c.body.length
  unpacks : Unpacks D opts c.compression c.records (frames inner ++ cut)
  valid : opts.validateChunkCRCs = true → Valid opts c (frames inner ++ cut)
  lengths : ∀ r ∈ inner, r.2.length < 2 ^ 63
  goes : (runs (innerRun opts) inner).stop = none
  broken : Broken opts r cut

/-- **The lexer returns an error at the end of the chunk**, whatever comes behind it. -/
def Notices (D : Unpackers) (opts : LexerOptions) (front : List Part) (c : Chunk)
    (inner : List (UInt8 × Bytes)) (seeks : Bool) : Prop :=
  ∀ (extra : Bytes) (post : List (UInt8 × Bytes)) (tail : Bytes) (off : Lexer),
    (fileOf opts (front.map Part.framed ++ (op.CHUNK, c.body ++ extra) :: post) tail).length <
      2 ^ 63 → ¬ exceeds opts (c.body ++ extra).length →
    newLexer ⟨fileOf opts (front.map Part.framed ++ (op.CHUNK, c.body ++ extra) :: post) tail, 0,
      seeks⟩ opts = .ok off →
    ∃ e, e ≠ .eof ∧ Ends D off ⟨(runs (Part.expanded opts) front).tokens ++
      (runs (innerRun opts) inner).tokens, some (.fail .error e)⟩

theorem notices_iff (front : List Part) {c : Chunk} {inner : List (UInt8 × Bytes)} {cut : Bytes}
    (seeks : Bool) (hemit : opts.emitChunks = false) (hfront : ∀ p ∈ front, p.Fits D opts)
    (hclean : Clean opts front) (hgoes : (runs (Part.expanded opts) front).stop = none)
    (hcut : CutOff D opts c inner r cut)
    (hlen : (fileOf opts (front.map Part.framed ++ [(op.CHUNK, c.body)]) MAGIC).length < 2 ^ 63) :
    Notices D opts front c inner seeks ↔ c.compression.length ≤ 24 ∧ Caught opts r cut := by
  have hsmall := hcut.short
  unfold maxInt32 at hsmall
  have hcompression : c.compression.length ≤ c.body.length := by
    simp only [Chunk.body, Chunk.top, putPrefixedString, List.length_append]
    omega
  -- the lexer comes to the chunk
  have hcome : ∀ (extra : Bytes) (post : List (UInt8 × Bytes)) (tail : Bytes) (off : Lexer),
      (fileOf opts (front.map Part.framed ++ (op.CHUNK, c.body ++ extra) :: post) tail).length <
        2 ^ 63 →
      newLexer ⟨fileOf opts (front.map Part.framed ++ (op.CHUNK, c.body ++ extra) :: post) tail, 0,
        seeks⟩ opts = .ok off →
      Follows D off (runs (Part.expanded opts) front) fun l' =>
        AtBase ((op.CHUNK :: le 8 (c.body ++ extra).length) ++
          (c.body ++ (extra ++ (frames post ++ tail)))) l' ∧ l'.opts = opts := by
    intro extra post tail off hfile hnew
    obtain ⟨off', hnew', hbase, hopts, -⟩ := newLexer_eq opts
      (fileOf opts (front.map Part.framed ++ (op.CHUNK, c.body ++ extra) :: post) tail)
      seeks rfl hfile
    rw [hnew] at hnew'
    cases hnew'
    rw [frames_append, frames_cons, List.append_assoc, List.append_assoc, frame_split,
      List.append_assoc c.body] at hbase
    have hoff := follows_parts (D := D) front (by rw [hopts]; exact hfront) hbase
      (by rw [hopts]; exact hemit)
    rwa [hopts, runs_opened_eq front hfront hclean] at hoff
  have hname : ∀ (rest : Bytes) (n : Nat) (l' : Lexer), n < 2 ^ 64 → ¬ exceeds opts n →
      c.compression.length ≤ 24 →
      AtBase ((op.CHUNK :: le 8 n) ++ (c.body ++ rest)) l' ∧ l'.opts = opts →
      Follows D l' ((runs (innerRun opts) inner).andThen (cutRun opts r cut)) fun l'' =>
        AtBase rest l'' ∧ l''.opts = opts := by
    rintro rest n l' hn hmax hshort ⟨h', hopts⟩
    have hchunk := follows_chunk (D := D) inner r cut h'
      (by rw [hopts]; exact hemit) hshort (by omega) hn
      (by rw [hopts]; exact admits_of_not_exceeds hmax) (by rw [hopts]; exact hcut.unpacks)
      (by rw [hopts]; exact hcut.valid) hcut.lengths (by rw [hopts]; exact hcut.broken)
    rwa [hopts] at hchunk
  have hrun : (runs (Part.expanded opts) front).andThen
      ((runs (innerRun opts) inner).andThen (cutRun opts r cut)) =
        ⟨(runs (Part.expanded opts) front).tokens ++ ((runs (innerRun opts) inner).tokens ++
          (cutRun opts r cut).tokens), (cutRun opts r cut).stop⟩ := by
    rw [Run.andThen_of_none hgoes, Run.andThen_of_none hcut.goes]
  constructor
  · intro h
    -- nothing behind the chunk
    have hnil : c.body ++ [] = c.body := List.append_nil _
    obtain ⟨off, hnew, -⟩ := newLexer_eq opts
      (fileOf opts (front.map Part.framed ++ [(op.CHUNK, c.body)]) MAGIC) seeks rfl hlen
    have hnotices := h [] [] MAGIC off
    have hfront := hcome [] [] MAGIC off
    rw [hnil] at hnotices hfront
    obtain ⟨e, he, hends⟩ := hnotices hlen hcut.admits hnew
    replace hfront := hfront hlen hnew
    have hshort : c.compression.length ≤ 24 := by
      by_contra hlong
      have hpanics : Follows D off ((runs (Part.expanded opts) front).andThen
          ⟨[], some .panic⟩) fun _ => True := by
        refine hfront.andThen fun l' h' => ?_
        exact .of_stop rfl (.nil l') (turn_chunk_long h'.1 (by rw [h'.2]; exact hemit) (by omega)
          (by omega) (by omega) (by rw [h'.2]; exact admits_of_not_exceeds hcut.admits))
      refine hpanics.not_ends ?_ hends
      rw [Run.andThen_of_none hgoes]
    refine ⟨hshort, ?_⟩
    by_contra hnot
    have hoff := hfront.andThen fun l' h' =>
      hname _ _ l' (by omega) hcut.admits hshort h'
    rw [hrun] at hoff
    have heof : Run.ending ⟨(runs (Part.expanded opts) front).tokens ++
        ((runs (innerRun opts) inner).tokens ++ (cutRun opts r cut).tokens),
          (cutRun opts r cut).stop⟩ = (.error, .eof) := by
      rcases cutRun_of_not_caught hnot with hcase | hcase <;> rw [hcase] <;> rfl
    have hends' := hoff.ends (fun _ l' h' => stops_tail (.inr rfl) h'.1) (by
      show (cutRun opts r cut).stop ≠ _
      rcases cutRun_of_not_caught hnot with hcase | hcase <;> rw [hcase] <;>
        exact fun h => by cases h)
    obtain ⟨-, hending⟩ := hends.unique hends'
    rw [heof] at hending
    exact he (Prod.mk.inj hending).2
  · rintro ⟨hshort, hcaught⟩ extra post tail off hfile hmax hnew
    obtain ⟨e, he, hfail⟩ := cutRun_of_caught hcaught
    have hn : (c.body ++ extra).length < 2 ^ 64 := by
      have hle : (c.body ++ extra).length ≤ (frames (front.map Part.framed ++
          (op.CHUNK, c.body ++ extra) :: post)).length :=
        length_le_frames (r := (op.CHUNK, c.body ++ extra)) (by simp)
      unfold fileOf at hfile
      rw [List.length_append, List.length_append] at hfile
      omega
    have hoff := (hcome extra post tail off hfile hnew).andThen fun l' h' =>
      hname _ _ l' hn hmax hshort h'
    rw [hrun, hfail] at hoff
    refine ⟨e, he, ?_⟩
    have hends := hoff.ends (fun h => by cases h) (fun h => by cases h)
    rwa [show (Run.fail e).tokens = [] from rfl, List.append_nil] at hends

/-- A chunk of one message, without compression. -/
def messageChunk : Chunk where
  messageStartTime := 0
  messageEndTime := 0
  uncompressedSize := 9
  uncompressedCRC := 0
  compression := []
  records := frame op.MESSAGE []

/-- A chunk whose records end behind the header of a message, and one byte of it. -/
def cutChunk : Chunk where
  messageStartTime := 0
  messageEndTime := 0
  uncompressedSize := 10
  uncompressedCRC := 0
  compression := []
  records := (frame op.MESSAGE [7, 7]).take 10

/-- A chunk without records, and an empty message behind its fields. -/
def spilledChunk : Part :=
  .chunk { messageChunk with uncompressedSize := 0, records := [] } [] [(op.MESSAGE, [])]

/-- A chunk whose records end in the header of a message. -/
def shortChunk : Chunk := { messageChunk with uncompressedSize := 3, records := [op.MESSAGE, 0, 0] }

end Lexer
end Go
end Mcap

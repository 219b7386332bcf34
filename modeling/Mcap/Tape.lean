import Mcap.WriterModes

/-! # Streams that are written to the end

`Stream.tape bytes` is a stream that never fails and stands at the end of what has been
written.  This module says what the writers stacked on a stream do to it: a
`CountingCrcWriter` adds the bytes to its tape, a `ChunkSink` that holds `base` and, after
it or in its buffer, a chunk adds them to the chunk, and a compressor adds what its encoder
emits for them.

`ChunkSink.held` hides whether a chunk is written in place or buffered: the two modes differ
only in `origin`, where the positions of the sink start.  `Coder` is a compressor without
its sink.
-/
namespace Mcap

/-! ## Streams -/

namespace Stream

/-- A stream that never fails, at position `pos`. -/
def tapeAt (bytes : Bytes) (pos : Nat) : Stream := ⟨bytes, pos, []⟩

/-- A stream that never fails, at its end. -/
def tape (bytes : Bytes) : Stream := tapeAt bytes bytes.length

@[simp] theorem tape_bytes (bytes : Bytes) : (tape bytes).bytes = bytes := rfl

/-- What is written goes over what is there. -/
def overwrite (bytes : Bytes) (pos : Nat) (b : Bytes) : Bytes :=
  bytes.take pos ++ b ++ bytes.drop (pos + b.length)

theorem overwrite_nil {bytes : Bytes} {pos : Nat} : overwrite bytes pos [] = bytes := by
  simp [overwrite]

theorem overwrite_end (bytes b : Bytes) : overwrite bytes bytes.length b = bytes ++ b := by
  simp [overwrite]

theorem overwrite_append (base bytes : Bytes) (pos : Nat) (b : Bytes) :
    overwrite (base ++ bytes) (base.length + pos) b = base ++ overwrite bytes pos b := by
  rw [overwrite, overwrite, List.take_append, List.take_of_length_le (by omega),
    Nat.add_sub_cancel_left, Nat.add_assoc, List.drop_append, List.drop_eq_nil_of_le (by omega)]
  simp [List.append_assoc]

theorem overwrite_front {a b : Bytes} (h : a.length = b.length) (rest : Bytes) :
    overwrite (a ++ rest) 0 b = b ++ rest := by
  rw [overwrite, List.take_zero, List.nil_append, Nat.zero_add, ← h, List.drop_left]

theorem writeAll_tapeAt {bytes : Bytes} {pos : Nat} (h : pos ≤ bytes.length) (b : Bytes) :
    writeAll (tapeAt bytes pos) b = .ok (tapeAt (overwrite bytes pos b) (pos + b.length)) := by
  rw [writeAll_eq]
  split
  · rename_i hb
    rw [hb, overwrite_nil]
    rfl
  · simp only [poll, tapeAt, put, overwrite]
    rw [Nat.sub_eq_zero_of_le h, List.replicate_zero, List.append_nil]

theorem writeAll_tape (bytes b : Bytes) : writeAll (tape bytes) b = .ok (tape (bytes ++ b)) := by
  rw [tape, writeAll_tapeAt (Nat.le_refl _), overwrite_end, tape, List.length_append]

theorem streamPosition_tape (bytes : Bytes) :
    streamPosition (tape bytes) = .ok (bytes.length, tape bytes) := rfl

end Stream

/-! ## Counting writers -/

namespace CountingCrcWriter
variable {W : Type} {c : CountingCrcWriter Stream} {bytes : Bytes}

theorem writeAll_ok [Write W] {c : CountingCrcWriter W} {b : Bytes} {inner : W}
    (h : writeAll c.inner b = .ok inner) : writeAll c b = .ok (c.account inner b) := by
  rw [writeAll_eq, h]

theorem streamPosition_ok [Seek W] {c : CountingCrcWriter W} {pos : Nat} {inner : W}
    (h : streamPosition c.inner = .ok (pos, inner)) :
    streamPosition c = .ok (pos, { c with inner }) := by
  rw [streamPosition_eq, h]

theorem account_nil (c : CountingCrcWriter W) : c.account c.inner [] = c := by
  obtain ⟨inner, _ | hasher, count⟩ := c <;> simp [account]

theorem account_account (c : CountingCrcWriter W) (w w' : W) (b b' : Bytes) :
    (c.account w b).account w' b' = c.account w' (b ++ b') := by
  obtain ⟨inner, _ | hasher, count⟩ := c <;> simp [account, Nat.add_assoc]

/-- The writer has a tape under it that holds `bytes`. -/
def OnTape (c : CountingCrcWriter Stream) (bytes : Bytes) : Prop := c.inner = Stream.tape bytes

/-- The writer once `b` has been written to its tape. -/
def push (c : CountingCrcWriter Stream) (bytes b : Bytes) : CountingCrcWriter Stream :=
  c.account (Stream.tape (bytes ++ b)) b

theorem OnTape.writeAll (h : c.OnTape bytes)
    (b : Bytes) : Mcap.writeAll c b = .ok (c.push bytes b) := by
  refine writeAll_ok ?_
  rw [h, Stream.writeAll_tape]

theorem onTape_push (c : CountingCrcWriter Stream) (bytes b : Bytes) :
    (c.push bytes b).OnTape (bytes ++ b) := rfl

theorem push_push (c : CountingCrcWriter Stream) (bytes b b' : Bytes) :
    (c.push bytes b).push (bytes ++ b) b' = c.push bytes (b ++ b') := by
  rw [push, push, account_account, List.append_assoc]
  rfl

theorem push_nil (h : c.OnTape bytes) :
    c.push bytes [] = c := by
  rw [push, List.append_nil, ← h]
  exact c.account_nil

theorem OnTape.streamPosition (h : c.OnTape bytes) :
    Mcap.streamPosition c = .ok (bytes.length, c) := by
  have hp := streamPosition_ok (c := c) (by rw [h]; exact Stream.streamPosition_tape bytes)
  rw [hp]
  obtain ⟨inner, hasher, count⟩ := c
  obtain rfl : inner = Stream.tape bytes := h
  rfl

end CountingCrcWriter

theorem write_of_writeAll {W : Type} [Write W] {w w' : W} {b : Bytes} (h : writeAll w b = .ok w') :
    write w b = .ok w' := write_eq_ok.mpr h

theorem position_of_streamPosition {W : Type} [Seek W] {w : W} {r : Nat × W}
    (h : streamPosition w = .ok r) : position w = .ok r := position_eq_ok.mpr h

theorem writeRecord_of_writeAll {W : Type} [Write W] {w w' : W} {r : Record} {b : Bytes}
    (hr : r.written = some b) (h : writeAll w b = .ok w') : writeRecord w r = .ok w' := by
  rw [writeRecord, hr]
  exact write_of_writeAll h

/-! ## Chunk sinks -/

namespace ChunkSink

/-- Where the positions of a sink start: at 0 in its buffer, or in the stream. -/
def origin (buffered : Bool) (base : Bytes) : Nat := if buffered then 0 else base.length

/-- A sink over a stream that holds `base`, at position `pos` of the chunk. -/
def heldAt (buffered : Bool) (base chunk : Bytes) (pos : Nat) : ChunkSink Stream :=
  if buffered then ⟨Stream.tape base, some (Stream.tapeAt chunk pos)⟩
  else ⟨Stream.tapeAt (base ++ chunk) (base.length + pos), none⟩

/-- A sink at the end of the chunk. -/
def held (buffered : Bool) (base chunk : Bytes) : ChunkSink Stream :=
  heldAt buffered base chunk chunk.length

/-- The mode of the next chunk. -/
def modeAfter (buffered : Bool) (chunk : Bytes) : ChunkMode :=
  if buffered then .buffered chunk else .direct

/-- Whether a mode has a buffer. -/
def isBuffered : ChunkMode → Bool
  | .direct => false
  | .buffered _ => true

variable {buffered : Bool} {base chunk : Bytes} {pos : Nat}

theorem new_tape (base : Bytes) (mode : ChunkMode) :
    new (Stream.tape base) mode = held (isBuffered mode) base [] := by
  cases mode with
  | direct => simp [new, held, heldAt, isBuffered, Stream.tape]
  | buffered buffer => rfl

theorem writeAll_heldAt (h : pos ≤ chunk.length) (b : Bytes) :
    writeAll (heldAt buffered base chunk pos) b =
      .ok (heldAt buffered base (Stream.overwrite chunk pos b) (pos + b.length)) := by
  cases buffered with
  | true =>
    show writeAll (⟨Stream.tape base, some (Stream.tapeAt chunk pos)⟩ : ChunkSink Stream) b = _
    rw [writeAll_eq]
    simp only [Stream.writeAll_tapeAt h]
    rfl
  | false =>
    show writeAll (⟨Stream.tapeAt (base ++ chunk) (base.length + pos), none⟩ : ChunkSink Stream) b = _
    have hle : base.length + pos ≤ (base ++ chunk).length := by
      rw [List.length_append]
      omega
    rw [writeAll_eq]
    simp only [Stream.writeAll_tapeAt hle, Stream.overwrite_append]
    rw [Nat.add_assoc]
    rfl

theorem writeAll_held (b : Bytes) :
    writeAll (held buffered base chunk) b = .ok (held buffered base (chunk ++ b)) := by
  rw [held, writeAll_heldAt (Nat.le_refl _), Stream.overwrite_end, held, List.length_append]

theorem writeAll_over_old {done old new rest : Bytes} (h : old.length = new.length) :
    writeAll (heldAt buffered base (done ++ (old ++ rest)) done.length) new =
      .ok (heldAt buffered base ((done ++ new) ++ rest) (done ++ new).length) := by
  have hover := Stream.overwrite_append done (old ++ rest) 0 new
  rw [Nat.add_zero, Stream.overwrite_front h] at hover
  rw [writeAll_heldAt (by rw [List.length_append]; omega), hover, List.length_append,
    List.append_assoc]

theorem streamPosition_heldAt : streamPosition (heldAt buffered base chunk pos) =
    .ok (origin buffered base + pos, heldAt buffered base chunk pos) := by
  cases buffered with
  | true =>
    rw [origin, if_pos rfl, Nat.zero_add]
    rfl
  | false => rfl

theorem seekStart_heldAt (pos' : Nat) : seekStart (heldAt buffered base chunk pos)
    (origin buffered base + pos') = .ok (heldAt buffered base chunk pos') := by
  cases buffered with
  | true =>
    rw [origin, if_pos rfl, Nat.zero_add]
    rfl
  | false => rfl

theorem seekEnd_heldAt : seekEnd (heldAt buffered base chunk pos) = .ok (held buffered base chunk) := by
  cases buffered with
  | true => rfl
  | false =>
    rw [held, heldAt, heldAt, if_neg Bool.false_ne_true, if_neg Bool.false_ne_true,
      ← List.length_append]
    rfl

theorem finish_held : (held buffered base chunk).finish =
    .ok (Stream.tape (base ++ chunk), modeAfter buffered chunk) := by
  cases buffered with
  | true =>
    show finish (⟨Stream.tape base, some (Stream.tapeAt chunk chunk.length)⟩ : ChunkSink Stream) = _
    rw [finish]
    simp only [Stream.tapeAt, Stream.writeAll_tape]
    rfl
  | false =>
    show finish (⟨Stream.tapeAt (base ++ chunk) (base.length + chunk.length), none⟩ :
      ChunkSink Stream) = _
    rw [← List.length_append]
    rfl

end ChunkSink

/-! ## Compressors -/

/-- A compressor without the writer under it. -/
inductive Coder (σ : Type)
  | null
  | zstd (encoder : σ)
  | lz4 (encoder : σ)

namespace Coder
variable {σ W : Type}

/-- The compressor over a writer. -/
def onto (w : W) : Coder σ → Compressor σ W
  | null => .null w
  | zstd encoder => .zstd encoder w
  | lz4 encoder => .lz4 encoder w

variable [Encoders σ]

/-- Bytes go through an encoder.  `wrap` is the variant. -/
def encode (wrap : σ → Coder σ) (encoder : σ) (b : Bytes) :
    Except (IoError × Coder σ) (Coder σ × Bytes) :=
  match Encoders.write encoder b with
  | .ok (encoder, out) => .ok (wrap encoder, out)
  | .error (e, encoder) => .error (e, wrap encoder)

/-- Bytes go in: what comes out. -/
def push (b : Bytes) : Coder σ → Except (IoError × Coder σ) (Coder σ × Bytes)
  | null => .ok (null, b)
  | zstd encoder => encode zstd encoder b
  | lz4 encoder => encode lz4 encoder b

/-- The end: what still comes out. -/
def finish : Coder σ → Except IoError Bytes
  | null => .ok []
  | zstd encoder => Encoders.finish encoder
  | lz4 encoder => Encoders.finish encoder

/-- The compressor of a new chunk, and what it emits at once. -/
def start (compression : Option Compression) (level threads : UInt32) :
    Except IoError (Coder σ × Bytes) :=
  match compression with
  | some .zstd =>
      match Encoders.newZstd level threads with
      | .ok encoder => .ok (zstd encoder, [])
      | .error e => .error e
  | some .lz4 =>
      match Encoders.newLz4 level with
      | .ok (encoder, out) => .ok (lz4 encoder, out)
      | .error e => .error e
  | none => .ok (null, [])

variable (σ) in
/-- The encoders do not fail: they compress into memory. -/
structure Reliable : Prop where
  newZstd : ∀ level threads e, (Encoders.newZstd level threads : Except IoError σ) ≠ .error e
  newLz4 : ∀ level e, (Encoders.newLz4 level : Except IoError (σ × Bytes)) ≠ .error e
  write : ∀ (encoder : σ) b e, Encoders.write encoder b ≠ .error e
  finish : ∀ (encoder : σ) e, Encoders.finish encoder ≠ .error e

variable {compression : Option Compression} {level threads : UInt32}

theorem Reliable.start_ne (h : Reliable σ)
    {e : IoError} : (start compression level threads : Except IoError (Coder σ × Bytes)) ≠ .error e := by
  intro hs
  unfold start at hs
  split at hs
  · split at hs
    · cases hs
    · exact h.newZstd _ _ _ ‹_›
  · split at hs
    · cases hs
    · exact h.newLz4 _ _ ‹_›
  · cases hs

theorem Reliable.push_ne (h : Reliable σ) {coder : Coder σ} {b : Bytes} {e : IoError × Coder σ} :
    coder.push b ≠ .error e := by
  have hencode : ∀ (wrap : σ → Coder σ) encoder, encode wrap encoder b ≠ .error e := by
    intro wrap encoder hs
    unfold encode at hs
    split at hs
    · cases hs
    · exact h.write _ _ _ ‹_›
  cases coder with
  | null => intro hs; cases hs
  | zstd encoder | lz4 encoder => exact hencode _ _

theorem Reliable.finish_ne (h : Reliable σ) {coder : Coder σ} {e : IoError} :
    coder.finish ≠ .error e := by
  cases coder with
  | null => intro hs; cases hs
  | zstd encoder | lz4 encoder => exact h.finish _ _

variable [Write W] {coder coder' : Coder σ} {w w' : W} {b out : Bytes} {e : IoError}

section
variable {wrap : σ → Coder σ} {encoder : σ}

theorem encode_onto (h : encode wrap encoder b = .ok (coder', out)) (hw : writeAll w out = .ok w') :
    Compressor.encode (fun encoder w => (wrap encoder).onto w) encoder w b =
      .ok (coder'.onto w') := by
  unfold encode at h
  split at h
  · rename_i he
    cases h
    simp only [Compressor.encode, he, hw]
  · cases h

theorem encode_onto_error (h : encode wrap encoder b = .error (e, coder')) :
    Compressor.encode (fun encoder w => (wrap encoder).onto w) encoder w b =
      .error (⟨0, e⟩, coder'.onto w) := by
  unfold encode at h
  split at h
  · cases h
  · rename_i he
    cases h
    simp only [Compressor.encode, he]

end

theorem writeAll_onto (h : coder.push b = .ok (coder', out)) (hw : writeAll w out = .ok w') :
    writeAll (coder.onto w) b = .ok (coder'.onto w') := by
  cases coder with
  | null =>
    cases h
    show writeAll (Compressor.null w) _ = _
    rw [Compressor.writeAll_null, hw]
    rfl
  | zstd encoder | lz4 encoder => exact encode_onto h hw

theorem writeAll_onto_error (h : coder.push b = .error (e, coder')) :
    writeAll (coder.onto w) b = .error (⟨0, e⟩, coder'.onto w) := by
  cases coder with
  | null => cases h
  | zstd encoder | lz4 encoder => exact encode_onto_error h

theorem finish_onto (h : coder.finish = .ok out) (hw : writeAll w out = .ok w')
    (hnil : writeAll w [] = .ok w) : (coder.onto w).finish = .ok w' := by
  cases coder with
  | null =>
    cases h
    rw [hnil] at hw
    cases hw
    rfl
  | zstd encoder | lz4 encoder =>
    show Compressor.finishEncoder encoder w = _
    rw [Compressor.finishEncoder, show Encoders.finish encoder = .ok out from h]
    simp only [hw]

theorem finish_onto_error (h : coder.finish = .error e) : (coder.onto w).finish = .error (e, w) := by
  cases coder with
  | null => cases h
  | zstd encoder | lz4 encoder =>
    show Compressor.finishEncoder encoder w = _
    rw [Compressor.finishEncoder, show Encoders.finish encoder = .error e from h]

theorem newCompressor_onto (h : start compression level threads = .ok (coder, out))
    (hw : writeAll w out = .ok w') (hnil : writeAll w [] = .ok w) :
    ChunkWriter.newCompressor w compression level threads = .ok (coder.onto w') := by
  rcases compression with _ | _ | _
  · cases h
    rw [hnil] at hw
    cases hw
    rfl
  · unfold start at h
    simp only at h
    split at h
    · rename_i encoder he
      cases h
      rw [hnil] at hw
      cases hw
      unfold ChunkWriter.newCompressor
      simp only [he]
      rfl
    · cases h
  · unfold start at h
    simp only at h
    split at h
    · rename_i he
      cases h
      unfold ChunkWriter.newCompressor
      simp only [he, write_of_writeAll hw]
      rfl
    · cases h

theorem newCompressor_error
    (h : (start compression level threads : Except IoError (Coder σ × Bytes)) = .error e) :
    (ChunkWriter.newCompressor w compression level threads : Res McapError (Compressor σ W)) =
      .err (.io e) := by
  rcases compression with _ | _ | _
  · cases h
  · unfold start at h
    simp only at h
    split at h
    · cases h
    · rename_i he
      cases h
      unfold ChunkWriter.newCompressor
      simp only [he]
  · unfold start at h
    simp only at h
    split at h
    · cases h
    · rename_i he
      cases h
      unfold ChunkWriter.newCompressor
      simp only [he]

end Coder
end Mcap

import Mcap.Layout
import Mcap.Writer

/-! # What no operation of the writer can do

Facts about the parts of a writer over a stream that may fail at any call.  The
position of a chunk's data is where its header ends (`ChunkWriter.Placed`), so the
assertion of `ChunkWriter::finish` holds (`finish_ne_panic`).  The operations below the
registries leave these alone (`Exec.Preserves` of `registry`), and panic only when the
writer is finished or its slot is empty (`Usable`).
-/
namespace Mcap

/-! ## Positions -/

namespace Stream
variable {s s' : Stream} {b : Bytes} {n : Nat}

theorem poll_pos (s : Stream) : s.poll.2.pos = s.pos := by
  unfold poll
  split <;> rfl

theorem moved_eq_ok {s s' : Stream} {n : Nat} (h : s.moved n = .ok s') : s'.pos = n := by
  unfold moved at h
  split at h
  · cases h
    rfl
  · cases h

theorem pos_of_writeAll (h : writeAll s b = .ok s') : s'.pos = s.pos + b.length := by
  rw [writeAll_eq] at h
  split at h
  · rename_i hb
    cases h
    rw [hb]
    rfl
  · rcases hp : s.poll with ⟨_ | f, t⟩ <;> rw [hp] at h
    · cases h
      have hpos := poll_pos s
      rw [hp] at hpos
      exact congrArg (· + b.length) hpos
    · cases h

theorem pos_of_seekStart (h : seekStart s n = .ok s') : s'.pos = n := moved_eq_ok h

theorem pos_of_streamPosition (h : streamPosition s = .ok (n, s')) : n = s.pos ∧ s'.pos = s.pos := by
  rcases hm : s.moved s.pos with ⟨e, t⟩ | t
  · rw [streamPosition_eq, hm] at h
    cases h
  · rw [streamPosition_eq, hm] at h
    cases h
    exact ⟨moved_eq_ok hm, moved_eq_ok hm⟩

end Stream

namespace ChunkSink
variable {c c' : ChunkSink Stream} {b : Bytes} {n : Nat}

/-- The position that is written to. -/
def pos (c : ChunkSink Stream) : Nat :=
  match c.buffer with
  | some buffer => buffer.pos
  | none => c.inner.pos

theorem pos_of_writeAll (h : writeAll c b = .ok c') : c'.pos = c.pos + b.length := by
  obtain ⟨inner, _ | buffer⟩ := c
  · rcases hw : writeAll inner b with ⟨f, t⟩ | t <;> simp only [writeAll_eq, hw] at h <;> cases h
    exact Stream.pos_of_writeAll hw
  · rcases hw : writeAll buffer b with ⟨f, t⟩ | t <;> simp only [writeAll_eq, hw] at h <;> cases h
    exact Stream.pos_of_writeAll hw

theorem pos_of_streamPosition (h : streamPosition c = .ok (n, c')) : n = c.pos ∧ c'.pos = c.pos := by
  obtain ⟨inner, _ | buffer⟩ := c
  · rcases hw : streamPosition inner with ⟨f, t⟩ | ⟨m, t⟩ <;>
      simp only [streamPosition_eq, seeking, hw] at h <;> cases h
    exact Stream.pos_of_streamPosition hw
  · rcases hw : streamPosition buffer with ⟨f, t⟩ | ⟨m, t⟩ <;>
      simp only [streamPosition_eq, seeking, hw] at h <;> cases h
    exact Stream.pos_of_streamPosition hw

theorem pos_of_seekStart (h : seekStart c n = .ok c') : c'.pos = n := by
  obtain ⟨inner, _ | buffer⟩ := c
  · rcases hw : seekStart inner n with ⟨f, t⟩ | t <;>
      simp only [seekStart_eq, seeking, hw, Except.map] at h <;> cases h
    exact Stream.pos_of_seekStart hw
  · rcases hw : seekStart buffer n with ⟨f, t⟩ | t <;>
      simp only [seekStart_eq, seeking, hw, Except.map] at h <;> cases h
    exact Stream.pos_of_seekStart hw

end ChunkSink

theorem CountingCrcWriter.inner_writeAll {W : Type} [Write W] {c c' : CountingCrcWriter W} {b : Bytes}
    (h : writeAll c b = .ok c') : writeAll c.inner b = .ok c'.inner := by
  rw [writeAll_eq] at h
  split at h
  · rename_i inner hw
    cases h
    exact hw
  · cases h

/-! ## Calls as the source makes them -/

/-- An error of the stream or of an encoder. -/
def IsIo (e : McapError) : Prop := ∃ i, e = .io i

/-- Whether an error is one of the stream or of an encoder. -/
def McapError.isIo : McapError → Bool
  | .io _ => true
  | _ => false

theorem isIo_iff (e : McapError) : e.isIo = true ↔ IsIo e := by
  cases e <;> simp [McapError.isIo, IsIo]

instance : DecidablePred IsIo := fun e => decidable_of_iff _ (isIo_iff e)

section
variable {V W α : Type} {q : McapError → Prop}

theorem write_eq_ok [Write W] {w w' : W} {b : Bytes} :
    write w b = .ok w' ↔ writeAll w b = .ok w' := by
  unfold write
  split <;> simp_all

theorem write_raises [Write W] (w : W) (b : Bytes) : (write w b).Raises (IsIo ·.1) := by
  unfold write
  split
  · trivial
  · exact ⟨_, rfl⟩

theorem writeRecord_raises [Write W] (w : W) {r : Record} (h : r.written ≠ none) :
    (writeRecord w r).Raises (IsIo ·.1) := by
  unfold writeRecord
  split
  · exact write_raises w _
  · exact absurd ‹_› h

theorem passOn_eq_ok {x : Except (IoError × W) α} {a : α} : passOn x = .ok a ↔ x = .ok a := by
  cases x <;> simp [passOn]

theorem passOn_raises (x : Except (IoError × W) α) : (passOn x).Raises (IsIo ·.1) := by
  cases x with
  | ok a => trivial
  | error e => exact ⟨_, rfl⟩

theorem position_eq_ok [Seek W] {w : W} {r : Nat × W} :
    position w = .ok r ↔ streamPosition w = .ok r := passOn_eq_ok

theorem position_raises [Seek W] (w : W) : (position w).Raises (IsIo ·.1) := passOn_raises _

theorem dropWriter_eq_ok {x : Res (McapError × W) α} {a : α} :
    dropWriter x = .ok a ↔ x = .ok a := by
  cases x <;> simp [dropWriter]

theorem dropWriter_raises {x : Res (McapError × W) α} (h : x.Raises (q ·.1)) :
    (dropWriter x).Raises q := by
  cases x <;> exact h

theorem unwrapWriter_eq_ok {f : V → W} {x : Res (McapError × V) α} {a : α} :
    unwrapWriter f x = .ok a ↔ x = .ok a := by
  cases x <;> simp [unwrapWriter]

theorem unwrapWriter_raises {f : V → W} {x : Res (McapError × V) α} (h : x.Raises (q ·.1)) :
    (unwrapWriter f x).Raises (q ·.2) := by
  cases x <;> exact h

end

/-! ## Chunk writers -/

namespace ChunkWriter
variable {σ : Type} [Encoders σ] {c : ChunkWriter σ Stream}

/-- The data of the chunk starts where its header ends. -/
def Placed {W : Type} (c : ChunkWriter σ W) : Prop :=
  c.dataStart = c.headerStart + 9 + (40 + (utf8 c.compressionName).length)

theorem length_opAndLen (opcode : UInt8) (len : Nat) : (opAndLen opcode len).length = 9 := by
  simp [opAndLen]

theorem placed_new {writer : CountingCrcWriter Stream} {compression : Option Compression}
    {mode : ChunkMode} {emit crcs : Bool} {level threads : UInt32}
    (h : new writer compression mode emit crcs level threads = .ok c) : c.Placed := by
  unfold new at h
  obtain ⟨⟨chunkOffset, writer'⟩, hpos, h⟩ := Res.bind_eq_ok.mp h
  obtain ⟨⟨headerStart, sink⟩, hstart, h⟩ := Res.bind_eq_ok.mp h
  obtain ⟨sink₁, hop, h⟩ := Res.bind_eq_ok.mp h
  obtain ⟨sink₂, hheader, h⟩ := Res.bind_eq_ok.mp h
  obtain ⟨⟨dataStart, sink₃⟩, hdata, h⟩ := Res.bind_eq_ok.mp h
  obtain ⟨compressor, hcomp, h⟩ := Res.bind_eq_ok.mp h
  cases h
  have h₀ := ChunkSink.pos_of_streamPosition (position_eq_ok.mp (dropWriter_eq_ok.mp hstart))
  have h₁ := ChunkSink.pos_of_writeAll (write_eq_ok.mp (dropWriter_eq_ok.mp hop))
  have h₂ := ChunkSink.pos_of_writeAll (write_eq_ok.mp (dropWriter_eq_ok.mp hheader))
  have h₃ := ChunkSink.pos_of_streamPosition (position_eq_ok.mp (dropWriter_eq_ok.mp hdata))
  have hlen : (dummyHeader compression).bytes.length =
      40 + (utf8 (Mcap.compressionName compression)).length := ChunkHeader.length_bytes _
  rw [length_opAndLen] at h₁
  show dataStart = headerStart + 9 + (40 + (utf8 (Mcap.compressionName compression)).length)
  omega

theorem newCompressor_raises {V : Type} [Write V] (sink : V) (compression : Option Compression)
    (level threads : UInt32) :
    (newCompressor sink compression level threads : Res McapError (Compressor σ V)).Raises IsIo := by
  unfold newCompressor
  split
  · split
    · trivial
    · exact ⟨_, rfl⟩
  · split
    · exact (dropWriter_raises (write_raises _ _)).bind fun _ _ => trivial
    · exact ⟨_, rfl⟩
  · trivial

theorem new_raises (writer : CountingCrcWriter Stream) (compression : Option Compression)
    (mode : ChunkMode) (emit crcs : Bool) (level threads : UInt32) :
    (new writer compression mode emit crcs level threads :
      Res McapError (ChunkWriter σ Stream)).Raises IsIo := by
  refine (dropWriter_raises (position_raises _)).bind fun ⟨_, _⟩ _ => ?_
  refine (dropWriter_raises (position_raises _)).bind fun ⟨_, _⟩ _ => ?_
  refine (dropWriter_raises (write_raises _ _)).bind fun _ _ => ?_
  refine (dropWriter_raises (write_raises _ _)).bind fun _ _ => ?_
  refine (dropWriter_raises (position_raises _)).bind fun ⟨_, _⟩ _ => ?_
  exact (newCompressor_raises _ _ _ _).bind fun _ _ => trivial

theorem patchHeader_raises (h : c.Placed) :
    c.patchHeader.Raises (IsIo ·.2) := by
  refine (unwrapWriter_raises (passOn_raises _)).bind fun writer _ => ?_
  refine (unwrapWriter_raises (position_raises _)).bind fun ⟨dataEnd, sink⟩ _ => ?_
  refine (unwrapWriter_raises (passOn_raises _)).bind fun sink₁ hseek => ?_
  refine (unwrapWriter_raises (write_raises _ _)).bind fun writer₁ hop => ?_
  refine (unwrapWriter_raises (write_raises _ _)).bind fun writer₂ hheader => ?_
  refine (unwrapWriter_raises (position_raises _)).bind fun ⟨pos, sink₂⟩ hpos => ?_
  -- the header that is written is as long as the dummy, so the position is `dataStart`
  have hstart : sink₁.pos = c.headerStart :=
    ChunkSink.pos_of_seekStart (passOn_eq_ok.mp (unwrapWriter_eq_ok.mp hseek))
  have hop' := CountingCrcWriter.inner_writeAll (write_eq_ok.mp (unwrapWriter_eq_ok.mp hop))
  have hheader' := CountingCrcWriter.inner_writeAll (write_eq_ok.mp (unwrapWriter_eq_ok.mp hheader))
  have h₁ := ChunkSink.pos_of_writeAll hop'
  have h₂ := ChunkSink.pos_of_writeAll hheader'
  have h₃ := ChunkSink.pos_of_streamPosition (position_eq_ok.mp (unwrapWriter_eq_ok.mp hpos))
  have hlen : (c.header writer.position).bytes.length = 40 + (utf8 c.compressionName).length :=
    ChunkHeader.length_bytes _
  have hdata : c.dataStart = pos := by
    rw [length_opAndLen] at h₁
    rw [hlen] at h₂
    unfold Placed at h
    show c.dataStart = pos
    have hw : (CountingCrcWriter.withHasher sink₁ c.preChunkCrc).inner = sink₁ := rfl
    rw [hw] at h₁
    omega
  show (if c.dataStart ≠ pos then Res.panic else _).Raises _
  rw [if_neg (not_not_intro hdata)]
  exact (unwrapWriter_raises (passOn_raises _)).bind fun _ _ => trivial

theorem writeIndexes_raises {l : List (UInt16 × List MessageIndexEntry)}
    {offsets : BTreeMap UInt16 UInt64} {writer : CountingCrcWriter Stream}
    (hl : (l.map Prod.fst).Nodup) (hnew : ∀ id ∈ l.map Prod.fst, offsets.contains id = false) :
    (writeIndexes l offsets writer).Raises (IsIo ·.1) := by
  induction l generalizing offsets writer with
  | nil => trivial
  | cons e l ih =>
    obtain ⟨channelId, records⟩ := e
    rw [List.map_cons, List.nodup_cons] at hl
    refine (position_raises _).bind fun ⟨pos, writer₁⟩ _ => ?_
    have hc := hnew channelId (by simp)
    show (if offsets.contains channelId = true then Res.panic else _).Raises _
    rw [if_neg (by rw [hc]; simp)]
    refine (write_raises _ _).bind fun writer₂ _ => ?_
    refine (write_raises _ _).bind fun writer₃ _ => ?_
    refine ih hl.2 fun id hid => ?_
    have hne : channelId ≠ id := by
      rintro rfl
      exact hl.1 hid
    have hold := hnew id (by simp [List.mem_map.mp hid])
    rw [BTreeMap.contains_eq_false_iff] at hold ⊢
    rw [BTreeMap.getElem?_insert_ne _ hne, hold]

/-- **The assertions of `ChunkWriter::finish` hold**: it fails only if the stream or the
encoder does. -/
theorem finish_raises (h : c.Placed) :
    c.finish.Raises (IsIo ·.2) := by
  refine (patchHeader_raises h).bind fun ⟨len, header, post, crc, sink⟩ _ => ?_
  refine (unwrapWriter_raises (passOn_raises _)).bind fun ⟨writer, mode⟩ _ => ?_
  refine (unwrapWriter_raises (position_raises _)).bind fun ⟨_, writer₁⟩ _ => ?_
  refine (unwrapWriter_raises (writeIndexes_raises (BTreeMap.nodup_keys_toList _) fun id _ => ?_)).bind
    fun ⟨offsets, writer₂⟩ _ => ?_
  · rw [BTreeMap.contains_eq_false_iff, Std.ExtTreeMap.getElem?_empty]
  · exact (unwrapWriter_raises (position_raises _)).bind fun _ _ => trivial

end ChunkWriter

/-! ## Writers -/

namespace Writer
variable {σ : Type}

/-- The writer without its write mode and what the modes keep between them. -/
def core {W : Type} (w : Writer σ W) : Writer σ W :=
  { w with writer := none, dropped := none, chunkMode := .direct, chunkIndexes := [] }

/-- The writer takes records: it is not finished, and its slot is not empty. -/
def Usable {W : Type} (w : Writer σ W) : Prop := w.writer ≠ none ∧ w.finishedSummary = none

/-- An open chunk is placed. -/
def Placed {W : Type} (w : Writer σ W) : Prop := ∀ c, w.writer = some (.chunk c) → c.Placed

/-- Why a writer may refuse a record: an attachment is in progress, it has failed
before, or the stream or the encoder fails. -/
def Refused {W : Type} (w : Writer σ W) (e : McapError) : Prop :=
  (∃ a, w.writer = some (.attachment a)) ∧ e = .attachmentNotInProgress ∨
    (∃ s, w.writer = some (.failed s)) ∧ e = .attemptedWriteAfterFailure ∨ IsIo e

/-- **A call that only writes**: it ends in a value or a refusal, it leaves everything
but the write mode as it is, and the writer goes on if it succeeds. -/
structure Writes {α : Type} (w : Writer σ Stream) (x : Res McapError α × Writer σ Stream) :
    Prop where
  core : x.2.core = w.core
  placed : x.2.Placed
  raises : x.1.Raises w.Refused
  usable : ∀ a, x.1 = .ok a → x.2.Usable

section
variable {w w' : Writer σ Stream}

theorem options_of_core (h : w'.core = w.core) : w'.options = w.options := by
  have ho := congrArg Writer.options h
  exact ho

theorem assertNotFinished_run (h : w.finishedSummary = none) :
    assertNotFinished w = (.ok (), w) := by
  rw [assertNotFinished, h]
  rfl

theorem Placed.of_not_chunk (h : ∀ c, w.writer ≠ some (.chunk c)) : w.Placed :=
  fun c hc => absurd hc (h c)

end

variable [Encoders σ] {w : Writer σ Stream} {r : Record} {header : MessageHeader} {data : Bytes}

theorem startChunk_writes (hu : w.Usable) (hp : w.Placed) (huse : w.options.useChunks = true) :
    Writes w (startChunk w) ∧ ∀ a, (startChunk w).1 = .ok a →
      ∃ c, (startChunk w).2.writer = some (.chunk c) := by
  obtain ⟨hwriter, hfin⟩ := hu
  rw [startChunk, Exec.bind_ok (assertNotFinished_run hfin), Exec.bind_ok (Exec.get_run w)]
  rcases hmode : w.writer with _ | mode
  · exact absurd hmode hwriter
  · cases mode with
    | attachment a =>
      exact ⟨⟨rfl, hp, .inl ⟨⟨a, hmode⟩, rfl⟩, fun a h => by cases h⟩, fun a h => by cases h⟩
    | failed s =>
      simp only [huse]
      exact ⟨⟨rfl, hp, .inr (.inl ⟨⟨s, hmode⟩, rfl⟩), fun a h => by cases h⟩, fun a h => by cases h⟩
    | chunk c =>
      simp only [huse]
      exact ⟨⟨rfl, hp, trivial, fun _ _ => ⟨hwriter, hfin⟩⟩, fun _ _ => ⟨c, hmode⟩⟩
    | raw writer =>
      simp only [huse, Exec.assert, if_true]
      have hraises := ChunkWriter.new_raises (σ := σ) writer w.options.compression w.chunkMode
        w.options.emitMessageIndexes w.options.calculateChunkCrcs w.options.compressionLevel
        w.options.compressionThreads
      rcases hnew : ChunkWriter.new (σ := σ) writer w.options.compression w.chunkMode
        w.options.emitMessageIndexes w.options.calculateChunkCrcs w.options.compressionLevel
        w.options.compressionThreads with c | e | _ <;> rw [hnew] at hraises
      · refine ⟨⟨rfl, ?_, trivial, fun _ _ => ⟨Option.some_ne_none _, hfin⟩⟩, fun _ _ => ⟨c, rfl⟩⟩
        rintro c' h
        cases h
        exact ChunkWriter.placed_new hnew
      · exact ⟨⟨rfl, .of_not_chunk (fun c h => by cases h), .inr (.inr hraises),
          fun a h => by cases h⟩, fun a h => by cases h⟩
      · exact hraises.elim

theorem finishChunk_writes (hu : w.Usable) (hp : w.Placed) :
    Writes w (finishChunk w) ∧ ∀ a, (finishChunk w).1 = .ok a →
      ∃ c, (finishChunk w).2.writer = some (.raw c) := by
  obtain ⟨hwriter, hfin⟩ := hu
  rw [finishChunk, Exec.bind_ok (assertNotFinished_run hfin), Exec.bind_ok (Exec.get_run w)]
  rcases hmode : w.writer with _ | mode
  · exact absurd hmode hwriter
  · cases mode with
    | attachment a =>
      exact ⟨⟨rfl, hp, .inl ⟨⟨a, hmode⟩, rfl⟩, fun a h => by cases h⟩, fun a h => by cases h⟩
    | failed s =>
      exact ⟨⟨rfl, hp, .inr (.inl ⟨⟨s, hmode⟩, rfl⟩), fun a h => by cases h⟩, fun a h => by cases h⟩
    | raw c => exact ⟨⟨rfl, hp, trivial, fun _ _ => ⟨hwriter, hfin⟩⟩, fun _ _ => ⟨c, hmode⟩⟩
    | chunk c =>
      have hraises := ChunkWriter.finish_raises (hp c hmode)
      simp only
      rcases hfinish : c.finish with ⟨writer, mode, index⟩ | ⟨stream, e⟩ | _ <;>
        rw [hfinish] at hraises
      · exact ⟨⟨rfl, .of_not_chunk (fun c h => by cases h), trivial,
          fun _ _ => ⟨Option.some_ne_none _, hfin⟩⟩, fun _ _ => ⟨writer, rfl⟩⟩
      · exact ⟨⟨rfl, .of_not_chunk (fun c h => by cases h), .inr (.inr hraises),
          fun a h => by cases h⟩, fun a h => by cases h⟩
      · exact hraises.elim

omit [Encoders σ] in
/-- A finished writer, or one whose slot is empty, does not take a record: whatever
comes after the assertion panics if the slot is empty. -/
theorem panic_of_not_usable {α : Type} {f : Unit → Exec (Writer σ Stream) McapError α}
    (h : ¬ w.Usable) (hf : w.writer = none → f () w = (.panic, w)) :
    (assertNotFinished >>= f) w = (.panic, w) := by
  by_cases hfin : w.finishedSummary = none
  · have hnone : w.writer = none := by
      by_contra hne
      exact h ⟨hne, hfin⟩
    rw [Exec.bind_ok (assertNotFinished_run hfin)]
    exact hf hnone
  · have hassert : assertNotFinished w = (.panic, w) := by
      rw [assertNotFinished, if_neg (by simpa using hfin)]
    rw [Exec.bind_panic hassert]

theorem startChunk_panic (h : ¬ w.Usable) : startChunk w = (.panic, w) := by
  refine panic_of_not_usable h fun hnone => ?_
  rw [Exec.bind_ok (Exec.get_run w), hnone]
  rfl

theorem finishChunk_panic (h : ¬ w.Usable) : finishChunk w = (.panic, w) := by
  refine panic_of_not_usable h fun hnone => ?_
  rw [Exec.bind_ok (Exec.get_run w), hnone]
  rfl

/-! ### Work on the write mode -/

section
variable {W : Type} {w w' : Writer σ W}

omit [Encoders σ] in
theorem onChunk_eq_ok {f : ChunkWriter σ W → Res (McapError × ChunkWriter σ W) (ChunkWriter σ W)} :
    onChunk f w = (.ok (), w') ↔ ∃ c c', w.writer = some (.chunk c) ∧ f c = .ok c' ∧
      w' = { w with writer := some (.chunk c') } := by
  rw [onChunk]
  split
  · rename_i c hc
    rcases hf : f c with c' | ⟨e, c'⟩ | _ <;> simp [hc, hf, eq_comm]
  · rename_i hc
    simp only [Prod.mk.injEq, reduceCtorEq, false_and, false_iff]
    rintro ⟨c, c', h, -⟩
    exact hc c h

omit [Encoders σ] in
theorem onRaw_eq_ok {α : Type} {a : α} {f : CountingCrcWriter W →
    Res (McapError × CountingCrcWriter W) (α × CountingCrcWriter W)} :
    onRaw f w = (.ok a, w') ↔ ∃ c c', w.writer = some (.raw c) ∧ f c = .ok (a, c') ∧
      w' = { w with writer := some (.raw c') } := by
  rw [onRaw]
  split
  · rename_i c hc
    rcases hf : f c with ⟨b, c'⟩ | ⟨e, c'⟩ | _ <;> simp [hc, hf, eq_comm]
  · rename_i hc
    simp only [Prod.mk.injEq, reduceCtorEq, false_and, false_iff]
    rintro ⟨c, c', h, -⟩
    exact hc c h

end

section
variable {c : ChunkWriter σ Stream}
  {f : ChunkWriter σ Stream → Res (McapError × ChunkWriter σ Stream) (ChunkWriter σ Stream)}

/-- A method of the chunk writer that fails only with the stream and leaves the chunk
where it is. -/
structure ChunkStep (f : ChunkWriter σ Stream →
    Res (McapError × ChunkWriter σ Stream) (ChunkWriter σ Stream)) : Prop where
  raises : ∀ c, (f c).Raises (IsIo ·.1)
  placed : ∀ c c', c.Placed → (f c = .ok c' ∨ ∃ e, f c = .err (e, c')) → c'.Placed

omit [Encoders σ] in
theorem onChunk_writes (hf : ChunkStep f) (hu : w.Usable) (hp : w.Placed)
    (hc : w.writer = some (.chunk c)) : Writes w (onChunk f w) := by
  have hraises := hf.raises c
  rw [onChunk]
  simp only [hc]
  rcases hfc : f c with c' | ⟨e, c'⟩ | _ <;> rw [hfc] at hraises
  · refine ⟨rfl, ?_, trivial, fun _ _ => ⟨Option.some_ne_none _, hu.2⟩⟩
    rintro c'' h
    cases h
    exact hf.placed c c' (hp c hc) (.inl hfc)
  · refine ⟨rfl, ?_, .inr (.inr hraises), fun a h => by cases h⟩
    rintro c'' h
    cases h
    exact hf.placed c c' (hp c hc) (.inr ⟨e, hfc⟩)
  · exact hraises.elim

theorem chunkStep_writeRecord {r : Record} (hr : r.written ≠ none) :
    ChunkStep (fun c : ChunkWriter σ Stream => c.writeRecord r) where
  raises c := by
    have h := writeRecord_raises c.compressor hr
    unfold ChunkWriter.writeRecord
    split <;> simp_all [Res.Raises]
  placed c c' hc h := by
    unfold ChunkWriter.writeRecord at h
    split at h <;> rcases h with h | ⟨e, h⟩ <;> cases h <;> exact hc

theorem chunkStep_writeMessage (header : MessageHeader) (data : Bytes) :
    ChunkStep (fun c : ChunkWriter σ Stream => c.writeMessage header data) where
  raises c := (chunkStep_writeRecord (by simp [Record.written])).raises (c.indexMessage header)
  placed c c' hc h :=
    (chunkStep_writeRecord (r := .message header data) (by simp [Record.written])).placed
      (c.indexMessage header) c' hc h

end

omit [Encoders σ] in
theorem onRaw_writes {α : Type} {c : CountingCrcWriter Stream}
    {f : CountingCrcWriter Stream →
      Res (McapError × CountingCrcWriter Stream) (α × CountingCrcWriter Stream)}
    (hf : (f c).Raises (IsIo ·.1)) (hu : w.Usable) (hc : w.writer = some (.raw c)) :
    Writes w (onRaw f w) := by
  rw [onRaw]
  simp only [hc]
  rcases hfc : f c with ⟨a, c'⟩ | ⟨e, c'⟩ | _ <;> rw [hfc] at hf
  · exact ⟨rfl, .of_not_chunk (fun c h => by cases h), trivial,
      fun _ _ => ⟨Option.some_ne_none _, hu.2⟩⟩
  · exact ⟨rfl, .of_not_chunk (fun c h => by cases h), .inr (.inr hf), fun a h => by cases h⟩
  · exact hf.elim

/-! ### Records -/

/-- The write mode between two calls that write. -/
def Open {W : Type} (w : Writer σ W) : Prop :=
  (∃ c, w.writer = some (.chunk c)) ∨ ∃ c, w.writer = some (.raw c)

omit [Encoders σ] in
theorem Refused.of_open {w' : Writer σ Stream} (h : w'.Open) {e : McapError} (he : w'.Refused e) :
    w.Refused e := by
  rcases he with ⟨⟨a, ha⟩, -⟩ | ⟨⟨s, hs⟩, -⟩ | he
  · rcases h with ⟨c, hc⟩ | ⟨c, hc⟩ <;> rw [ha] at hc <;> cases hc
  · rcases h with ⟨c, hc⟩ | ⟨c, hc⟩ <;> rw [hs] at hc <;> cases hc
  · exact .inr (.inr he)

omit [Encoders σ] in
theorem Writes.bind {α β : Type} {x : Exec (Writer σ Stream) McapError α}
    {f : α → Exec (Writer σ Stream) McapError β} (hx : Writes w (x w))
    (hf : ∀ a w', x w = (.ok a, w') → w'.Open ∧ Writes w' (f a w')) : Writes w ((x >>= f) w) := by
  rw [Exec.bind_run]
  rcases h : x w with ⟨a | e | _, w'⟩
  · obtain ⟨hopen, hw⟩ := hf a w' h
    rw [h] at hx
    refine ⟨hw.core.trans hx.core, hw.placed, ?_, hw.usable⟩
    have hr := hw.raises
    cases hres : (f a w').1 with
    | ok b => trivial
    | err e =>
      rw [hres] at hr
      exact hr.of_open hopen
    | panic =>
      rw [hres] at hr
      exact hr
  · rw [h] at hx
    exact ⟨hx.core, hx.placed, hx.raises, fun a h => by cases h⟩
  · rw [h] at hx
    exact hx.raises.elim

theorem chunkRecord_writes (hr : r.written ≠ none) (hu : w.Usable) (hp : w.Placed)
    (huse : w.options.useChunks = true) : Writes w (chunkRecord r w) := by
  obtain ⟨hs, hchunk⟩ := startChunk_writes hu hp huse
  refine hs.bind fun a w' h => ?_
  rw [h] at hs hchunk
  obtain ⟨c, hc⟩ := hchunk a rfl
  exact ⟨.inl ⟨c, hc⟩, onChunk_writes (chunkStep_writeRecord hr) (hs.usable a rfl) hs.placed hc⟩

theorem topRecord_writes (hr : r.written ≠ none) (hu : w.Usable) (hp : w.Placed) :
    Writes w (topRecord r w) := by
  obtain ⟨hs, hraw⟩ := finishChunk_writes hu hp
  refine hs.bind fun a w' h => ?_
  rw [h] at hs hraw
  obtain ⟨c, hc⟩ := hraw a rfl
  exact ⟨.inr ⟨c, hc⟩, onRaw_writes ((writeRecord_raises c hr).bind fun _ _ => trivial)
    (hs.usable a rfl) hc⟩

theorem writeDefinition_writes (hr : r.written ≠ none) (hu : w.Usable)
    (hp : w.Placed) : Writes w (writeDefinition r w) := by
  rw [writeDefinition, Exec.bind_ok (Exec.get_run w)]
  split
  · rename_i huse
    exact chunkRecord_writes hr hu hp huse
  · exact topRecord_writes hr hu hp

theorem chunkRecord_panic (h : ¬ w.Usable) : chunkRecord r w = (.panic, w) := by
  rw [chunkRecord, Exec.bind_panic (startChunk_panic h)]

theorem topRecord_panic (h : ¬ w.Usable) : topRecord r w = (.panic, w) := by
  rw [topRecord, Exec.bind_panic (finishChunk_panic h)]

theorem writeDefinition_panic (h : ¬ w.Usable) :
    writeDefinition r w = (.panic, w) := by
  rw [writeDefinition, Exec.bind_ok (Exec.get_run w)]
  split
  · exact chunkRecord_panic h
  · exact topRecord_panic h

/-! ### Messages -/

theorem rollChunk_cases (w : Writer σ Stream) :
    rollChunk w = (.ok (), w) ∨ rollChunk w = finishChunk w := by
  rw [rollChunk, Exec.bind_ok (Exec.get_run w)]
  rcases w.writer with _ | (c | c | a | s) <;> rcases w.options.chunkSize with _ | target
  case some.chunk.some =>
    by_cases h : c.compressor.position > target.toNat
    · exact .inr (by simp only [if_pos h])
    · exact .inl (by simp only [if_neg h, Exec.pure_run])
  all_goals exact .inl rfl

theorem writeMessageRecord_writes (hu : w.Usable)
    (hp : w.Placed) : Writes w (writeMessageRecord header data w) := by
  rw [writeMessageRecord, Exec.bind_ok (Exec.get_run w)]
  split
  · rename_i huse
    obtain ⟨hs, hchunk⟩ := startChunk_writes hu hp huse
    refine hs.bind fun a w' h => ?_
    rw [h] at hs hchunk
    obtain ⟨c, hc⟩ := hchunk a rfl
    exact ⟨.inl ⟨c, hc⟩,
      onChunk_writes (chunkStep_writeMessage header data) (hs.usable a rfl) hs.placed hc⟩
  · exact topRecord_writes (by simp [Record.written]) hu hp

theorem rollChunk_writeMessage_writes (hu : w.Usable)
    (hp : w.Placed) : Writes w ((rollChunk >>= fun _ => writeMessageRecord header data) w) := by
  rcases rollChunk_cases w with h | h
  · rw [Exec.bind_ok h]
    exact writeMessageRecord_writes hu hp
  · obtain ⟨hs, hraw⟩ := finishChunk_writes hu hp
    refine Writes.bind (by rw [h]; exact hs) fun a w' hw' => ?_
    rw [h] at hw'
    rw [hw'] at hs hraw
    exact ⟨.inr (hraw a rfl), writeMessageRecord_writes (hs.usable a rfl) hs.placed⟩

theorem writeMessageRecord_panic (h : ¬ w.Usable) :
    writeMessageRecord header data w = (.panic, w) := by
  rw [writeMessageRecord, Exec.bind_ok (Exec.get_run w)]
  split
  · rw [Exec.bind_panic (startChunk_panic h)]
  · exact topRecord_panic h

theorem rollChunk_writeMessage_panic (h : ¬ w.Usable) :
    (rollChunk >>= fun _ => writeMessageRecord header data) w = (.panic, w) := by
  rcases rollChunk_cases w with hr | hr
  · rw [Exec.bind_ok hr]
    exact writeMessageRecord_panic h
  · rw [finishChunk_panic h] at hr
    rw [Exec.bind_panic hr]

theorem writeToKnownChannel_run (h : w.allChannelIds.contains header.channelId = true) :
    writeToKnownChannel header data w =
      (rollChunk >>= fun _ => writeMessageRecord header data) (countMessage header w) := by
  rw [writeToKnownChannel, Exec.bind_ok (Exec.get_run w), if_neg (by rw [h]; simp),
    Exec.bind_ok (Exec.modify_run _ w)]

end Writer
end Mcap

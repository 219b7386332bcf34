import Mcap.Tape
import Mcap.WriterRuns

/-! # A stream that may fail, and what is written on it

Between the calls of a writer its stream stands at its end, behind what it began with, however many of
the calls on it have failed (`Writer.AtEnd`): a call that fails has written a part, at the
end.  Only the header of a chunk is written elsewhere, and if that fails the writer is given
up.

`Writer.Slotted` is an invariant of the slot of a writer that the calls below the registries keep.
Every call keeps it then (`Slotted.run`).
-/
namespace Mcap

theorem Exec.bind_assoc {σ ε α β γ : Type} (x : Exec σ ε α) (f : α → Exec σ ε β)
    (g : β → Exec σ ε γ) : (x >>= f >>= g) = (x >>= fun a => f a >>= g) := by
  funext s
  rw [bind_run, bind_run, bind_run]
  rcases x s with ⟨a | e | _, t⟩ <;> rfl

/-! ## Streams -/

namespace Stream
variable {front : Bytes} {s s' : Stream} {b : Bytes} {n : Nat}

/-- The stream begins with `front`, and it stands at its end. -/
structure AtEnd (front : Bytes) (s : Stream) : Prop where
  starts : front <+: s.bytes
  pos : s.pos = s.bytes.length

/-- The stream begins with `front`, and it stands behind that. -/
structure Behind (front : Bytes) (s : Stream) : Prop where
  starts : front <+: s.bytes
  pos : front.length ≤ s.pos

theorem poll_bytes (s : Stream) : s.poll.2.bytes = s.bytes := by
  unfold poll
  split <;> rfl

theorem AtEnd.of_same {t : Stream} (h : s.AtEnd front) (hb : t.bytes = s.bytes) (hp : t.pos = s.pos) :
    t.AtEnd front := ⟨hb ▸ h.starts, by rw [hp, hb, h.pos]⟩

theorem Behind.of_same {t : Stream} (h : s.Behind front) (hb : t.bytes = s.bytes)
    (hp : t.pos = s.pos) : t.Behind front := ⟨hb ▸ h.starts, hp ▸ h.pos⟩

theorem AtEnd.bytes_put (h : s.AtEnd front) (b : Bytes) : (s.put b).bytes = s.bytes ++ b := by
  rw [put, h.pos, Nat.sub_self, List.replicate_zero, List.append_nil, List.take_length,
    List.drop_eq_nil_of_le (Nat.le_add_right ..), List.append_nil]

theorem AtEnd.put (h : s.AtEnd front) (b : Bytes) : (s.put b).AtEnd front where
  starts := by
    rw [h.bytes_put]
    exact h.starts.trans (List.prefix_append ..)
  pos := by
    rw [h.bytes_put, List.length_append, ← h.pos]
    rfl

theorem Behind.put (h : s.Behind front) (b : Bytes) : (s.put b).Behind front where
  starts := by
    obtain ⟨rest, hrest⟩ := h.starts
    have hlen : front.length ≤ (s.bytes ++ List.replicate (s.pos - s.bytes.length) 0).length := by
      rw [← hrest, List.append_assoc, List.length_append]
      omega
    have hwhole := h.starts.trans
      (List.prefix_append s.bytes (List.replicate (s.pos - s.bytes.length) 0))
    refine List.prefix_of_prefix_length_le hwhole (List.take_prefix s.pos _) ?_ |>.trans ?_
    · rw [List.length_take]
      exact Nat.le_min.mpr ⟨h.pos, hlen⟩
    · rw [Stream.put, List.append_assoc]
      exact List.prefix_append ..
  pos := h.pos.trans (Nat.le_add_right ..)

end Stream

/-- **An invariant that writing keeps**, also if it fails. -/
structure Write.Keeps {W : Type} [Write W] (I : W → Prop) : Prop where
  ok : ∀ {w b w'}, I w → writeAll w b = .ok w' → I w'
  error : ∀ {w b f w'}, I w → writeAll w b = .error (f, w') → I w'

namespace Stream
variable {front : Bytes} {s s' : Stream} {n : Nat}

theorem writeAll_keeps {I : Stream → Prop} (hput : ∀ s b, I s → I (s.put b))
    (hsame : ∀ s t, I s → t.bytes = s.bytes → t.pos = s.pos → I t) : Write.Keeps I where
  ok {s b s'} h hw := by
    rw [writeAll_eq] at hw
    split at hw
    · cases hw
      exact h
    · have hpolled := hsame _ s.poll.2 h (poll_bytes s) (poll_pos s)
      rcases hp : s.poll with ⟨_ | f, t⟩ <;> rw [hp] at hw hpolled <;> cases hw
      exact hput t b hpolled
  error {s b f s'} h hw := by
    rw [writeAll_eq] at hw
    split at hw
    · cases hw
    · have hpolled := hsame _ s.poll.2 h (poll_bytes s) (poll_pos s)
      rcases hp : s.poll with ⟨_ | f, t⟩ <;> rw [hp] at hw hpolled <;> cases hw
      exact hput t _ hpolled

theorem keeps_atEnd (front : Bytes) : Write.Keeps (AtEnd front) :=
  writeAll_keeps (fun _ b h => h.put b) fun _ _ h => h.of_same

theorem keeps_behind : Write.Keeps (Behind front) :=
  writeAll_keeps (fun _ b h => h.put b) fun _ _ h => h.of_same

theorem bytes_of_moved (h : s.moved n = .ok s') : s'.bytes = s.bytes := by
  have hb := poll_bytes s
  unfold moved at h
  rcases hp : s.poll with ⟨_ | f, t⟩ <;> rw [hp] at h hb <;> cases h
  exact hb

theorem of_moved_error {e : IoError} (h : s.moved n = .error (e, s')) :
    s'.bytes = s.bytes ∧ s'.pos = s.pos := by
  have hb := poll_bytes s
  have hpos := poll_pos s
  unfold moved at h
  rcases hp : s.poll with ⟨_ | f, t⟩ <;> rw [hp] at h hb hpos <;> cases h
  exact ⟨hb, hpos⟩

theorem moved_of_streamPosition (h : streamPosition s = .ok (n, s')) :
    n = s.pos ∧ s'.bytes = s.bytes ∧ s'.pos = s.pos := by
  obtain ⟨hn, hpos⟩ := pos_of_streamPosition h
  rcases hm : s.moved s.pos with ⟨e, t⟩ | t <;> rw [streamPosition_eq, hm] at h <;> cases h
  exact ⟨hn, bytes_of_moved hm, hpos⟩

theorem moved_of_streamPosition_error {e : IoError} (h : streamPosition s = .error (e, s')) :
    s'.bytes = s.bytes ∧ s'.pos = s.pos := by
  rcases hm : s.moved s.pos with ⟨e, t⟩ | t <;> rw [streamPosition_eq, hm] at h <;> cases h
  exact of_moved_error hm

theorem behind_of_seekStart (hf : front <+: s.bytes) (hn : front.length ≤ n)
    (h : seekStart s n = .ok s') : s'.Behind front :=
  ⟨bytes_of_moved h ▸ hf, (moved_eq_ok h).symm ▸ hn⟩

theorem atEnd_of_seekEnd (hf : front <+: s.bytes) (h : seekEnd s = .ok s') : s'.AtEnd front :=
  ⟨bytes_of_moved h ▸ hf, (moved_eq_ok h).trans (congrArg List.length (bytes_of_moved h)).symm⟩

end Stream

/-! ## What is stacked on a stream -/

section
variable {W : Type} [Write W] {I : W → Prop} {w w' : W} {b : Bytes} {e : McapError}

theorem Write.Keeps.write_ok (hI : Write.Keeps I) (h : I w) (hw : write w b = .ok w') : I w' :=
  hI.ok h (write_eq_ok.mp hw)

theorem Write.Keeps.write_err (hI : Write.Keeps I) (h : I w) (hw : write w b = .err (e, w')) :
    I w' := by
  unfold write at hw
  split at hw
  · cases hw
  · rename_i f w'' hf
    cases hw
    exact hI.error h hf

theorem Write.Keeps.writeRecord_ok (hI : Write.Keeps I) (h : I w) {r : Record}
    (hw : writeRecord w r = .ok w') : I w' := by
  unfold writeRecord at hw
  split at hw
  · exact hI.write_ok h hw
  · cases hw

theorem Write.Keeps.writeRecord_err (hI : Write.Keeps I) (h : I w) {r : Record}
    (hw : writeRecord w r = .err (e, w')) : I w' := by
  unfold writeRecord at hw
  split at hw
  · exact hI.write_err h hw
  · cases hw

theorem CountingCrcWriter.keeps (hI : Write.Keeps I) :
    Write.Keeps fun c : CountingCrcWriter W => I c.inner where
  ok {c b c'} h hw := hI.ok h (inner_writeAll hw)
  error {c b f c'} h hw := by
    rw [writeAll_eq] at hw
    rcases hi : writeAll c.inner b with ⟨f', t⟩ | t <;> rw [hi] at hw <;> cases hw
    exact hI.error h hi

/-- What a compressor writes on. -/
def Compressor.sink {σ : Type} : Compressor σ W → W
  | .null w => w
  | .zstd _ w => w
  | .lz4 _ w => w

theorem Compressor.encode_keeps {σ : Type} [Encoders σ] {wrap : σ → W → Compressor σ W}
    (hwrap : ∀ encoder w, (wrap encoder w).sink = w) (hI : Write.Keeps I) {encoder : σ} (h : I w) :
    (∀ c, encode wrap encoder w b = .ok c → I c.sink) ∧
      ∀ f c, encode wrap encoder w b = .error (f, c) → I c.sink := by
  unfold encode
  rcases Encoders.write encoder b with ⟨e, encoder'⟩ | ⟨encoder', out⟩
  · refine ⟨fun c hc => (by cases hc), fun f c hc => ?_⟩
    cases hc
    rwa [hwrap]
  · simp only
    rcases hw : writeAll w out with ⟨f', t⟩ | t
    · refine ⟨fun c hc => (by cases hc), fun f c hc => ?_⟩
      cases hc
      rw [hwrap]
      exact hI.error h hw
    · refine ⟨fun c hc => ?_, fun f c hc => (by cases hc)⟩
      cases hc
      rw [hwrap]
      exact hI.ok h hw

theorem Compressor.keeps {σ : Type} [Encoders σ] (hI : Write.Keeps I) :
    Write.Keeps fun c : Compressor σ W => I c.sink where
  ok {c b c'} h hw := by
    cases c with
    | null w =>
      rw [writeAll_null] at hw
      rcases hi : writeAll w b with ⟨f, t⟩ | t <;> rw [hi] at hw <;> cases hw
      exact hI.ok h hi
    | zstd encoder w | lz4 encoder w => exact (encode_keeps (fun _ _ => rfl) hI h).1 c' hw
  error {c b f c'} h hw := by
    cases c with
    | null w =>
      rw [writeAll_null] at hw
      rcases hi : writeAll w b with ⟨f', t⟩ | t <;> rw [hi] at hw <;> cases hw
      exact hI.error h hi
    | zstd encoder w | lz4 encoder w => exact (encode_keeps (fun _ _ => rfl) hI h).2 f c' hw

theorem Compressor.finish_keeps {σ : Type} [Encoders σ] (hI : Write.Keeps I) {c : Compressor σ W}
    (h : I c.sink) (hf : c.finish = .ok w') : I w' := by
  have hencoder : ∀ (encoder : σ) (w : W), I w → finishEncoder encoder w = .ok w' → I w' := by
    intro encoder w hw hf
    unfold finishEncoder at hf
    rcases he : Encoders.finish encoder with e | out <;> rw [he] at hf
    · cases hf
    · simp only at hf
      rcases hi : writeAll w out with ⟨f, t⟩ | t <;> rw [hi] at hf <;> cases hf
      exact hI.ok hw hi
  cases c with
  | null w =>
    cases hf
    exact h
  | zstd encoder w | lz4 encoder w => exact hencoder encoder w h hf

end

/-! ## The parts of a writer -/

section
variable {front : Bytes} {n : Nat} {e : McapError}

theorem CountingCrcWriter.position_ok {c c' : CountingCrcWriter Stream} (h : c.inner.AtEnd front)
    (hp : Mcap.position c = .ok (n, c')) : n = c.inner.pos ∧ c'.inner.AtEnd front := by
  have hpos := position_eq_ok.mp hp
  rw [streamPosition_eq] at hpos
  rcases hi : streamPosition c.inner with ⟨e, t⟩ | ⟨m, t⟩ <;> rw [hi] at hpos <;> cases hpos
  obtain ⟨hn, hb, hs⟩ := Stream.moved_of_streamPosition hi
  exact ⟨hn, h.of_same hb hs⟩

theorem CountingCrcWriter.position_err {c c' : CountingCrcWriter Stream} (h : c.inner.AtEnd front)
    (hp : Mcap.position c = .err (e, c')) : c'.inner.AtEnd front := by
  unfold Mcap.position at hp
  rw [streamPosition_eq] at hp
  rcases hi : streamPosition c.inner with ⟨e, t⟩ | ⟨m, t⟩ <;> rw [hi] at hp <;> cases hp
  obtain ⟨hb, hs⟩ := Stream.moved_of_streamPosition_error hi
  exact h.of_same hb hs

namespace ChunkSink

/-- The stream under the sink is at its end, and if the chunk is written in place, its header is not
in front. -/
structure AtEnd (front : Bytes) (start : Nat) (c : ChunkSink Stream) : Prop where
  inner : c.inner.AtEnd front
  direct : c.buffer = none → front.length ≤ start

/-- The sink while the header is written. -/
def Patching (front : Bytes) (c : ChunkSink Stream) : Prop :=
  match c.buffer with
  | some _ => c.inner.AtEnd front
  | none => c.inner.Behind front

variable {start : Nat} {c c' : ChunkSink Stream}

theorem keeps_atEnd (front : Bytes) (start : Nat) : Write.Keeps (AtEnd front start) where
  ok {c b c'} h hw := by
    obtain ⟨inner, _ | buffer⟩ := c
    · rcases hi : writeAll inner b with ⟨f, t⟩ | t <;> simp only [writeAll_eq, hi] at hw <;> cases hw
      exact ⟨(Stream.keeps_atEnd _).ok h.inner hi, fun _ => h.direct rfl⟩
    · rcases hi : writeAll buffer b with ⟨f, t⟩ | t <;> simp only [writeAll_eq, hi] at hw <;> cases hw
      exact ⟨h.inner, fun hn => by cases hn⟩
  error {c b f c'} h hw := by
    obtain ⟨inner, _ | buffer⟩ := c
    · rcases hi : writeAll inner b with ⟨f', t⟩ | t <;> simp only [writeAll_eq, hi] at hw <;> cases hw
      exact ⟨(Stream.keeps_atEnd _).error h.inner hi, fun _ => h.direct rfl⟩
    · rcases hi : writeAll buffer b with ⟨f', t⟩ | t <;> simp only [writeAll_eq, hi] at hw <;> cases hw
      exact ⟨h.inner, fun hn => by cases hn⟩

theorem keeps_patching (front : Bytes) : Write.Keeps (Patching front) where
  ok {c b c'} h hw := by
    obtain ⟨inner, _ | buffer⟩ := c
    · rcases hi : writeAll inner b with ⟨f, t⟩ | t <;> simp only [writeAll_eq, hi] at hw <;> cases hw
      exact Stream.keeps_behind.ok h hi
    · rcases hi : writeAll buffer b with ⟨f, t⟩ | t <;> simp only [writeAll_eq, hi] at hw <;> cases hw
      exact h
  error {c b f c'} h hw := by
    obtain ⟨inner, _ | buffer⟩ := c
    · rcases hi : writeAll inner b with ⟨f', t⟩ | t <;> simp only [writeAll_eq, hi] at hw <;> cases hw
      exact Stream.keeps_behind.error h hi
    · rcases hi : writeAll buffer b with ⟨f', t⟩ | t <;> simp only [writeAll_eq, hi] at hw <;> cases hw
      exact h

theorem streamPosition_atEnd (h : c.AtEnd front start) (hp : streamPosition c = .ok (n, c')) :
    c'.AtEnd front start ∧ (c.buffer = none → front.length ≤ n) := by
  obtain ⟨inner, _ | buffer⟩ := c
  · rcases hi : streamPosition inner with ⟨e, t⟩ | ⟨m, t⟩ <;>
      simp only [streamPosition_eq, seeking, hi] at hp <;> cases hp
    obtain ⟨rfl, hb, hs⟩ := Stream.moved_of_streamPosition hi
    refine ⟨⟨h.inner.of_same hb hs, fun _ => h.direct rfl⟩, fun _ => ?_⟩
    rw [show inner.pos = inner.bytes.length from h.inner.pos]
    exact h.inner.starts.length_le
  · rcases hi : streamPosition buffer with ⟨e, t⟩ | ⟨m, t⟩ <;>
      simp only [streamPosition_eq, seeking, hi] at hp <;> cases hp
    exact ⟨⟨h.inner, fun hn => by cases hn⟩, fun hn => by cases hn⟩

theorem streamPosition_patching (h : c.Patching front) (hp : streamPosition c = .ok (n, c')) :
    c'.Patching front := by
  obtain ⟨inner, _ | buffer⟩ := c
  · rcases hi : streamPosition inner with ⟨e, t⟩ | ⟨m, t⟩ <;>
      simp only [streamPosition_eq, seeking, hi] at hp <;> cases hp
    obtain ⟨-, hb, hs⟩ := Stream.moved_of_streamPosition hi
    exact Stream.Behind.of_same h hb hs
  · rcases hi : streamPosition buffer with ⟨e, t⟩ | ⟨m, t⟩ <;>
      simp only [streamPosition_eq, seeking, hi] at hp <;> cases hp
    exact h

theorem seekStart_patching (h : c.AtEnd front start) (hs : seekStart c start = .ok c') :
    c'.Patching front := by
  obtain ⟨inner, _ | buffer⟩ := c
  · rcases hi : seekStart inner start with ⟨e, t⟩ | t <;>
      simp only [seekStart_eq, seeking, hi, Except.map] at hs <;> cases hs
    exact Stream.behind_of_seekStart h.inner.starts (h.direct rfl) hi
  · rcases hi : seekStart buffer start with ⟨e, t⟩ | t <;>
      simp only [seekStart_eq, seeking, hi, Except.map] at hs <;> cases hs
    exact h.inner

theorem seekEnd_atEnd (h : c.Patching front) (hs : seekEnd c = .ok c') : c'.inner.AtEnd front := by
  obtain ⟨inner, _ | buffer⟩ := c
  · rcases hi : seekEnd inner with ⟨e, t⟩ | t <;>
      simp only [seekEnd_eq, seeking, hi, Except.map] at hs <;> cases hs
    exact Stream.atEnd_of_seekEnd h.starts hi
  · rcases hi : seekEnd buffer with ⟨e, t⟩ | t <;>
      simp only [seekEnd_eq, seeking, hi, Except.map] at hs <;> cases hs
    exact h

theorem finish_atEnd {s : Stream} {mode : ChunkMode} (h : c.inner.AtEnd front)
    (hf : c.finish = .ok (s, mode)) : s.AtEnd front := by
  obtain ⟨inner, _ | buffer⟩ := c
  · cases hf
    exact h
  · unfold finish at hf
    rcases hi : writeAll inner buffer.bytes with ⟨f, t⟩ | t <;> simp only [hi] at hf <;> cases hf
    exact (Stream.keeps_atEnd _).ok h hi

end ChunkSink

namespace ChunkWriter
variable {σ : Type} [Encoders σ] {writer : CountingCrcWriter Stream} {c : ChunkWriter σ Stream}

/-- The sink of a chunk. -/
def sink (c : ChunkWriter σ Stream) : ChunkSink Stream := c.compressor.inner.sink.inner

/-- The stream under the chunk is at its end. -/
def AtEnd (front : Bytes) (c : ChunkWriter σ Stream) : Prop := c.sink.AtEnd front c.headerStart

omit [Encoders σ] in
theorem newCompressor_keeps {V : Type} [Write V] [Encoders σ] {I : V → Prop} (hI : Write.Keeps I)
    {sink : V} (h : I sink) {compression : Option Compression} {level threads : UInt32}
    {c : Compressor σ V} (hc : newCompressor sink compression level threads = .ok c) : I c.sink := by
  rcases compression with _ | (_ | _)
  · cases hc
    exact h
  · unfold newCompressor at hc
    simp only at hc
    split at hc <;> cases hc
    exact h
  · unfold newCompressor at hc
    simp only at hc
    split at hc
    · obtain ⟨sink', hw, hc⟩ := Res.bind_eq_ok.mp hc
      cases hc
      exact hI.write_ok h (dropWriter_eq_ok.mp hw)
    · cases hc

/-- **A chunk is opened.** -/
theorem new_atEnd (h : writer.inner.AtEnd front) {compression : Option Compression}
    {mode : ChunkMode} {emit crcs : Bool} {level threads : UInt32}
    (hnew : new writer compression mode emit crcs level threads = .ok c) :
    c.AtEnd front := by
  unfold new at hnew
  obtain ⟨⟨chunkOffset, writer'⟩, hpos, hnew⟩ := Res.bind_eq_ok.mp hnew
  obtain ⟨⟨headerStart, sink⟩, hstart, hnew⟩ := Res.bind_eq_ok.mp hnew
  obtain ⟨sink₁, hop, hnew⟩ := Res.bind_eq_ok.mp hnew
  obtain ⟨sink₂, hheader, hnew⟩ := Res.bind_eq_ok.mp hnew
  obtain ⟨⟨dataStart, sink₃⟩, hdata, hnew⟩ := Res.bind_eq_ok.mp hnew
  obtain ⟨compressor, hcomp, hnew⟩ := Res.bind_eq_ok.mp hnew
  cases hnew
  have hwriter := (CountingCrcWriter.position_ok h (dropWriter_eq_ok.mp hpos)).2
  -- the header is where the stream ends
  have hsink : ChunkSink.AtEnd front headerStart sink := by
    have hfresh : ChunkSink.AtEnd front front.length (ChunkSink.new writer'.inner mode) :=
      ⟨hwriter, fun _ => Nat.le_refl _⟩
    have hposition := position_eq_ok.mp (dropWriter_eq_ok.mp hstart)
    obtain ⟨hsink, hle⟩ := ChunkSink.streamPosition_atEnd hfresh hposition
    refine ⟨hsink.inner, fun hnone => hle ?_⟩
    rcases mode with _ | buffer
    · rfl
    · rcases hi : streamPosition Stream.empty with ⟨e, t⟩ | ⟨m, t⟩ <;>
        simp only [ChunkSink.new, ChunkSink.streamPosition_eq, ChunkSink.seeking, hi] at hposition <;>
        cases hposition
      cases hnone
  have hk := ChunkSink.keeps_atEnd front headerStart
  have h₂ := hk.write_ok (hk.write_ok hsink (dropWriter_eq_ok.mp hop)) (dropWriter_eq_ok.mp hheader)
  have h₃ := (ChunkSink.streamPosition_atEnd h₂ (position_eq_ok.mp (dropWriter_eq_ok.mp hdata))).1
  exact newCompressor_keeps (CountingCrcWriter.keeps hk)
    (show ChunkSink.AtEnd front headerStart (CountingCrcWriter.new sink₃ crcs).inner from h₃) hcomp

theorem writeRecord_atEnd {c' : ChunkWriter σ Stream} (h : c.AtEnd front) {r : Record}
    (hw : c.writeRecord r = .ok c' ∨ ∃ e, c.writeRecord r = .err (e, c')) : c'.AtEnd front := by
  have hk := CountingCrcWriter.keeps (Compressor.keeps (σ := σ) (CountingCrcWriter.keeps
    (ChunkSink.keeps_atEnd front c.headerStart)))
  unfold ChunkWriter.writeRecord at hw
  rcases hr : Mcap.writeRecord c.compressor r with compressor | ⟨e, compressor⟩ | _ <;>
    simp only [hr] at hw <;> rcases hw with hw | ⟨e, hw⟩ <;> cases hw
  · exact hk.writeRecord_ok h hr
  · exact hk.writeRecord_err h hr

theorem patchHeader_atEnd (h : c.AtEnd front) {length : Nat} {header : ChunkHeader}
    {post crc : Option Hasher} {sink : ChunkSink Stream}
    (hp : c.patchHeader = .ok (length, header, post, crc, sink)) : sink.inner.AtEnd front := by
  unfold patchHeader at hp
  obtain ⟨writer, hfinish, hp⟩ := Res.bind_eq_ok.mp hp
  obtain ⟨⟨dataEnd, sink₁⟩, hpos, hp⟩ := Res.bind_eq_ok.mp hp
  obtain ⟨sink₂, hseek, hp⟩ := Res.bind_eq_ok.mp hp
  obtain ⟨writer₁, hop, hp⟩ := Res.bind_eq_ok.mp hp
  obtain ⟨writer₂, hheader, hp⟩ := Res.bind_eq_ok.mp hp
  obtain ⟨⟨pos, sink₃⟩, hpos₃, hp⟩ := Res.bind_eq_ok.mp hp
  have hk := CountingCrcWriter.keeps (ChunkSink.keeps_atEnd front c.headerStart)
  have hwriter := Compressor.finish_keeps hk h (passOn_eq_ok.mp (unwrapWriter_eq_ok.mp hfinish))
  have h₁ := (ChunkSink.streamPosition_atEnd hwriter
    (position_eq_ok.mp (unwrapWriter_eq_ok.mp hpos))).1
  have h₂ := ChunkSink.seekStart_patching h₁ (passOn_eq_ok.mp (unwrapWriter_eq_ok.mp hseek))
  have hk' := CountingCrcWriter.keeps (ChunkSink.keeps_patching front)
  have hw₁ := hk'.write_ok (w := CountingCrcWriter.withHasher sink₂ c.preChunkCrc) h₂
    (unwrapWriter_eq_ok.mp hop)
  have hw₂ := hk'.write_ok hw₁ (unwrapWriter_eq_ok.mp hheader)
  have h₃ := ChunkSink.streamPosition_patching hw₂ (position_eq_ok.mp (unwrapWriter_eq_ok.mp hpos₃))
  simp only at hp
  split at hp
  · cases hp
  · obtain ⟨sink₄, hend, hp⟩ := Res.bind_eq_ok.mp hp
    cases hp
    exact ChunkSink.seekEnd_atEnd h₃ (passOn_eq_ok.mp (unwrapWriter_eq_ok.mp hend))

theorem writeIndexes_atEnd {l : List (UInt16 × List MessageIndexEntry)}
    {offsets offsets' : BTreeMap UInt16 UInt64} {writer' : CountingCrcWriter Stream}
    (h : writer.inner.AtEnd front) (hw : writeIndexes l offsets writer = .ok (offsets', writer')) :
    writer'.inner.AtEnd front := by
  have hk := CountingCrcWriter.keeps (Stream.keeps_atEnd front)
  induction l generalizing offsets writer with
  | nil =>
    cases hw
    exact h
  | cons entry l ih =>
    obtain ⟨channelId, records⟩ := entry
    obtain ⟨⟨pos, writer₁⟩, hpos, hw⟩ := Res.bind_eq_ok.mp hw
    simp only at hw
    split at hw
    · cases hw
    · obtain ⟨writer₂, hop, hw⟩ := Res.bind_eq_ok.mp hw
      obtain ⟨writer₃, hbuf, hw⟩ := Res.bind_eq_ok.mp hw
      have h₁ := (CountingCrcWriter.position_ok h hpos).2
      exact ih (hk.write_ok (hk.write_ok h₁ hop) hbuf) hw

/-- **A chunk is finished**, and the stream is at its end. -/
theorem finish_atEnd (h : c.AtEnd front) {mode : ChunkMode} {index : ChunkIndex}
    (hf : c.finish = .ok (writer, mode, index)) :
    writer.inner.AtEnd front := by
  unfold finish at hf
  obtain ⟨⟨length, header, post, crc, sink⟩, hpatch, hf⟩ := Res.bind_eq_ok.mp hf
  obtain ⟨⟨inner, mode'⟩, hsink, hf⟩ := Res.bind_eq_ok.mp hf
  obtain ⟨⟨dataEnd, writer₁⟩, hpos, hf⟩ := Res.bind_eq_ok.mp hf
  obtain ⟨⟨offsets, writer₂⟩, hindexes, hf⟩ := Res.bind_eq_ok.mp hf
  obtain ⟨⟨pos, writer₃⟩, hpos₃, hf⟩ := Res.bind_eq_ok.mp hf
  cases hf
  have hinner := ChunkSink.finish_atEnd (patchHeader_atEnd h hpatch)
    (passOn_eq_ok.mp (unwrapWriter_eq_ok.mp hsink))
  have h₁ := (CountingCrcWriter.position_ok
    (c := CountingCrcWriter.withHasher inner (joinHashers post crc)) hinner
    (unwrapWriter_eq_ok.mp hpos)).2
  have h₂ := writeIndexes_atEnd h₁ (unwrapWriter_eq_ok.mp hindexes)
  exact (CountingCrcWriter.position_ok h₂ (unwrapWriter_eq_ok.mp hpos₃)).2

end ChunkWriter

namespace AttachmentWriter

/-- The stream under the attachment is at its end. -/
def AtEnd (front : Bytes) (a : AttachmentWriter (CountingCrcWriter Stream)) : Prop :=
  a.writer.inner.inner.AtEnd front

variable {a : AttachmentWriter (CountingCrcWriter Stream)}

theorem new_atEnd {writer : CountingCrcWriter Stream} (h : writer.inner.AtEnd front)
    {length : UInt64} {header : AttachmentHeader} {crc : Bool}
    (hnew : new writer length header crc = .ok a) : a.AtEnd front := by
  have hk := CountingCrcWriter.keeps (Stream.keeps_atEnd front)
  have hk' := CountingCrcWriter.keeps hk
  unfold new at hnew
  obtain ⟨⟨offset, writer₁⟩, hpos, hnew⟩ := Res.bind_eq_ok.mp hnew
  obtain ⟨writer₂, hop, hnew⟩ := Res.bind_eq_ok.mp hnew
  obtain ⟨writer₃, hheader, hnew⟩ := Res.bind_eq_ok.mp hnew
  obtain ⟨writer₄, hlength, hnew⟩ := Res.bind_eq_ok.mp hnew
  cases hnew
  have h₁ := (CountingCrcWriter.position_ok h (dropWriter_eq_ok.mp hpos)).2
  have h₂ := hk.write_ok h₁ (dropWriter_eq_ok.mp hop)
  have h₃ := hk'.write_ok (w := CountingCrcWriter.new writer₂ crc) h₂ (dropWriter_eq_ok.mp hheader)
  exact hk'.write_ok h₃ (dropWriter_eq_ok.mp hlength)

theorem putBytes_atEnd {a' : AttachmentWriter (CountingCrcWriter Stream)} (h : a.AtEnd front)
    {bytes : Bytes} (hp : a.putBytes bytes = .ok a' ∨ ∃ e, a.putBytes bytes = .err (e, a')) :
    a'.AtEnd front := by
  have hk := CountingCrcWriter.keeps (CountingCrcWriter.keeps (Stream.keeps_atEnd front))
  unfold putBytes at hp
  simp only at hp
  split at hp
  · rcases hp with hp | ⟨e, hp⟩ <;> cases hp
    exact h
  · rcases hw : write a.writer bytes with writer | ⟨e, writer⟩ | _ <;> simp only [hw] at hp <;>
      rcases hp with hp | ⟨e, hp⟩ <;> cases hp
    · exact hk.write_ok h hw
    · exact hk.write_err h hw

theorem finish_atEnd (h : a.AtEnd front) {writer : CountingCrcWriter Stream}
    {index : AttachmentIndex} (hf : a.finish = .ok (writer, index)) : writer.inner.AtEnd front := by
  have hk := CountingCrcWriter.keeps (Stream.keeps_atEnd front)
  unfold finish at hf
  simp only at hf
  split at hf
  · cases hf
  · obtain ⟨writer₁, hcrc, hf⟩ := Res.bind_eq_ok.mp hf
    obtain ⟨⟨pos, writer₂⟩, hpos, hf⟩ := Res.bind_eq_ok.mp hf
    cases hf
    exact (CountingCrcWriter.position_ok (hk.write_ok h (dropWriter_eq_ok.mp hcrc))
      (dropWriter_eq_ok.mp hpos)).2

end AttachmentWriter
end

/-! ## What the calls keep -/

/-- The stream under the writer is at its end; a writer that has been given up has none. -/
def WriteMode.AtEnd {σ : Type} (front : Bytes) : WriteMode σ Stream → Prop
  | .raw c => c.inner.AtEnd front
  | .chunk c => c.AtEnd front
  | .attachment a => a.AtEnd front
  | .failed _ => True

namespace Writer
variable {σ : Type} {α β : Type}

/-- The stream of the writer is at its end. -/
def AtEnd (front : Bytes) (w : Writer σ Stream) : Prop :=
  ∀ mode, w.writer = some mode → mode.AtEnd front

/-- Work on an open chunk that leaves the stream at its end, also if it fails. -/
def ChunkKeeps (f : ChunkWriter σ Stream → Res (McapError × ChunkWriter σ Stream)
    (ChunkWriter σ Stream)) : Prop :=
  ∀ front c c', c.AtEnd front → (f c = .ok c' ∨ ∃ e, f c = .err (e, c')) → c'.AtEnd front

/-- Work on the stream that leaves it at its end, also if it fails. -/
def RawKeeps (f : CountingCrcWriter Stream →
    Res (McapError × CountingCrcWriter Stream) (α × CountingCrcWriter Stream)) : Prop :=
  ∀ front c c', c.inner.AtEnd front → ((∃ a, f c = .ok (a, c')) ∨ ∃ e, f c = .err (e, c')) →
    c'.inner.AtEnd front

variable [Encoders σ]

theorem chunkKeeps_writeRecord (r : Record) :
    ChunkKeeps (σ := σ) (ChunkWriter.writeRecord · r) :=
  fun _ _ _ h hw => ChunkWriter.writeRecord_atEnd h hw

theorem chunkKeeps_writeMessage (header : MessageHeader) (data : Bytes) :
    ChunkKeeps (σ := σ) (ChunkWriter.writeMessage · header data) :=
  fun _ c _ h hw => ChunkWriter.writeRecord_atEnd (c := c.indexMessage header) h hw

omit [Encoders σ] in
theorem rawKeeps_bind {f : CountingCrcWriter Stream →
    Res (McapError × CountingCrcWriter Stream) (α × CountingCrcWriter Stream)}
    {k : α × CountingCrcWriter Stream →
      Res (McapError × CountingCrcWriter Stream) (β × CountingCrcWriter Stream)}
    (hf : RawKeeps f) (hk : ∀ a, RawKeeps fun c => k (a, c)) : RawKeeps fun c => f c >>= k := by
  intro front c c' h hrun
  rcases hc : f c with ⟨a, c₁⟩ | ⟨e, c₁⟩ | _ <;> simp only [hc] at hrun
  · exact hk a front c₁ c' (hf front c c₁ h (.inl ⟨a, hc⟩)) hrun
  · rcases hrun with ⟨a, hrun⟩ | ⟨e', hrun⟩ <;> cases hrun
    exact hf front c _ h (.inr ⟨_, hc⟩)
  · rcases hrun with ⟨a, hrun⟩ | ⟨e', hrun⟩ <;> cases hrun

omit [Encoders σ] in
theorem rawKeeps_pure (a : α) : RawKeeps fun c => .ok (a, c) := by
  rintro front c c' h (⟨_, hw⟩ | ⟨e, hw⟩) <;> cases hw
  exact h

omit [Encoders σ] in
theorem rawKeeps_position : RawKeeps fun c => position c := by
  rintro front c c' h (⟨n, hp⟩ | ⟨e, hp⟩)
  · exact (CountingCrcWriter.position_ok h hp).2
  · exact CountingCrcWriter.position_err h hp

omit [Encoders σ] in
theorem rawKeeps_writeRecord (r : Record) {k : CountingCrcWriter Stream →
    Res (McapError × CountingCrcWriter Stream) (α × CountingCrcWriter Stream)} (hk : RawKeeps k) :
    RawKeeps fun c => writeRecord c r >>= k := by
  intro front c c' h hw
  have hkeep := CountingCrcWriter.keeps (Stream.keeps_atEnd front)
  rcases hr : writeRecord c r with c₁ | ⟨e', c₁⟩ | _ <;> simp only [hr] at hw
  · exact hk front c₁ c' (hkeep.writeRecord_ok h hr) hw
  · rcases hw with ⟨_, hw⟩ | ⟨e, hw⟩ <;> cases hw
    exact hkeep.writeRecord_err h hr
  · rcases hw with ⟨_, hw⟩ | ⟨e, hw⟩ <;> cases hw

omit [Encoders σ] in
theorem rawKeeps_putMetadata (metadata : Metadata) : RawKeeps (putMetadata metadata) :=
  rawKeeps_bind rawKeeps_position fun offset => rawKeeps_writeRecord (.metadata metadata)
    (rawKeeps_bind rawKeeps_position fun stop => rawKeeps_pure (offset, stop - offset))

omit [Encoders σ] in
theorem rawKeeps_flushRaw : RawKeeps (flushRaw (W := Stream)) := by
  intro front c c' h hw
  have hmoved : ∀ s t : Stream, s.AtEnd front → (s.flush = .ok t ∨ ∃ e, s.flush = .error (e, t)) →
      t.AtEnd front := by
    rintro s t hs (ht | ⟨e, ht⟩)
    · exact hs.of_same (Stream.bytes_of_moved ht) (Stream.moved_eq_ok ht)
    · exact hs.of_same (Stream.of_moved_error ht).1 (Stream.of_moved_error ht).2
  unfold flushRaw at hw
  simp only [Flush.flush] at hw
  rcases hf : c.inner.flush with ⟨e, t⟩ | t <;> simp only [hf] at hw <;>
    rcases hw with ⟨_, hw⟩ | ⟨e, hw⟩ <;> cases hw
  · exact hmoved c.inner t h (.inr ⟨_, hf⟩)
  · exact hmoved c.inner t h (.inl hf)

/-! ## Invariants of the slot -/

/-- **An invariant of the slot of a writer**, which the calls below the registries keep. -/
structure Slotted (I : Writer σ Stream → Prop) : Prop where
  of_slot : ∀ {w w' : Writer σ Stream}, I w → w'.writer = w.writer →
    w'.finishedSummary = w.finishedSummary → w'.options = w.options →
    w'.attachmentIndexes = w.attachmentIndexes → I w'
  finishChunk : Exec.Preserves I finishChunk
  inChunk : ∀ {f}, ChunkKeeps f → Exec.Preserves I (startChunk >>= fun _ => onChunk f)
  onTop : ∀ {α : Type} {f : CountingCrcWriter Stream →
    Res (McapError × CountingCrcWriter Stream) (α × CountingCrcWriter Stream)}, RawKeeps f →
    Exec.Preserves I (Writer.finishChunk >>= fun _ => onRaw f)
  startAttachment : ∀ length header, Exec.Preserves I (startAttachment length header)
  putAttachmentBytes : ∀ bytes, Exec.Preserves I (putAttachmentBytes bytes)
  finishAttachment : Exec.Preserves I finishAttachment

namespace Slotted
variable {I : Writer σ Stream → Prop} {w : Writer σ Stream} (hI : Slotted I)
include hI

theorem chunkRecord (r : Record) : Exec.Preserves I (chunkRecord r) :=
  hI.inChunk (chunkKeeps_writeRecord r)

theorem topRecord (r : Record) : Exec.Preserves I (topRecord r) :=
  hI.onTop (rawKeeps_writeRecord r (rawKeeps_pure ()))

theorem writeDefinition (r : Record) : Exec.Preserves I (writeDefinition r) := by
  intro w h
  rw [Writer.writeDefinition, Exec.bind_ok (Exec.get_run w)]
  split
  · exact hI.chunkRecord r w h
  · exact hI.topRecord r w h

theorem rollChunk : Exec.Preserves I rollChunk := by
  intro w h
  rcases rollChunk_cases w with hr | hr <;> rw [hr]
  · exact h
  · exact hI.finishChunk w h

theorem writeMessageRecord (header : MessageHeader) (data : Bytes) :
    Exec.Preserves I (writeMessageRecord header data) := by
  intro w h
  rw [Writer.writeMessageRecord, Exec.bind_ok (Exec.get_run w)]
  split
  · exact hI.inChunk (chunkKeeps_writeMessage header data) w h
  · exact hI.topRecord _ w h

theorem writeToKnownChannel (header : MessageHeader) (data : Bytes) :
    Exec.Preserves I (writeToKnownChannel header data) := by
  intro w h
  by_cases hk : w.allChannelIds.contains header.channelId = true
  · rw [writeToKnownChannel_run hk]
    exact (hI.rollChunk.bind fun _ => hI.writeMessageRecord header data) _ (hI.of_slot h rfl rfl rfl rfl)
  · have hfalse : w.allChannelIds.contains header.channelId = false := Bool.eq_false_iff.mpr hk
    rw [Writer.writeToKnownChannel, Exec.bind_ok (Exec.get_run w), if_pos hfalse]
    exact h

theorem addSchema {name encoding : String} {data : Bytes} (hs : w.Sound) (h : I w) :
    I (addSchema name encoding data w).2 := by
  refine addSchema_cases hs (fun _ _ => h) (fun _ _ => hI.of_slot h rfl rfl rfl rfl)
    fun canonicalSchemas id _ _ _ _ _ => ?_
  exact ((hI.writeDefinition _).bind fun _ => .pure _) _ (hI.of_slot h rfl rfl rfl rfl)

theorem addChannel {schemaId : UInt16} {topic messageEncoding : String}
    {metadata : BTreeMap String String} (hs : w.Sound) (h : I w) :
    I (addChannel schemaId topic messageEncoding metadata w).2 := by
  refine addChannel_cases hs (fun _ _ => h) (fun _ _ => h)
    (fun _ _ => hI.of_slot h rfl rfl rfl rfl) fun canonicalChannels id _ _ _ _ _ _ => ?_
  exact ((hI.writeDefinition _).bind fun _ => .pure _) _ (hI.of_slot h rfl rfl rfl rfl)

theorem registerSchema {schema : Schema} (hs : w.Sound) (h : I w) :
    I (registerSchema schema w).2 := by
  refine registerSchema_cases hs (fun _ _ _ _ => ?_) (fun _ _ _ _ => ?_) h (fun _ _ _ _ => h)
  · exact hI.writeDefinition _ _ (hI.of_slot h rfl rfl rfl rfl)
  · exact hI.writeDefinition _ _ (hI.of_slot h rfl rfl rfl rfl)

theorem registerChannel {channel : Channel} (hs : w.Sound) (h : I w) :
    I (registerChannel channel w).2 := by
  refine registerChannel_cases hs (fun _ _ _ _ => ?_) (fun _ _ _ _ => ?_) h (fun _ _ _ _ => h)
  · exact hI.writeDefinition _ _ (hI.of_slot h rfl rfl rfl rfl)
  · exact hI.writeDefinition _ _ (hI.of_slot h rfl rfl rfl rfl)

theorem write (message : Message) :
    Exec.Preserves (fun w => w.Sound ∧ I w) (write message) := by
  have hschema : ∀ schema, Exec.Preserves (fun w => w.Sound ∧ I w) (Writer.registerSchema schema) :=
    fun schema w h =>
      ⟨(preserves_registerSchema schema w ⟨h.1, .refl w⟩).sound, hI.registerSchema h.1 h.2⟩
  have hchannel : ∀ channel,
      Exec.Preserves (fun w => w.Sound ∧ I w) (Writer.registerChannel channel) :=
    fun channel w h =>
      ⟨(preserves_registerChannel channel w ⟨h.1, .refl w⟩).sound, hI.registerChannel h.1 h.2⟩
  have hmessage : ∀ header data,
      Exec.Preserves (fun w => w.Sound ∧ I w) (Writer.writeToKnownChannel header data) :=
    fun header data w h =>
      ⟨(steady_writeToKnownChannel steady_good header data w ⟨h.1, .refl w⟩).sound,
        hI.writeToKnownChannel header data w h.2⟩
  rw [Writer.write]
  cases message.channel.schema with
  | none => exact (Exec.Preserves.pure ()).bind fun _ => (hchannel _).bind fun _ => hmessage _ _
  | some schema => exact (hschema schema).bind fun _ => (hchannel _).bind fun _ => hmessage _ _

omit hI [Encoders σ] in
theorem reply {x : Exec (Writer σ Stream) McapError α} {f : α → Reply} (h : I (x w).2) :
    I ((x >>= fun a => pure (f a)) w).2 := by
  rw [Exec.bind_run]
  rcases hx : x w with ⟨a | e | _, w'⟩ <;> rw [hx] at h <;> exact h

/-- **Every call keeps the invariant.** -/
theorem run (op : Op) (hs : w.Sound) (h : I w) : I (op.run w).2 := by
  cases op with
  | addSchema name encoding data => exact reply (hI.addSchema hs h)
  | addChannel schemaId topic messageEncoding metadata => exact reply (hI.addChannel hs h)
  | write message => exact reply (hI.write message w ⟨hs, h⟩).2
  | writeToKnownChannel header data => exact reply (hI.writeToKnownChannel header data w h)
  | writePrivateRecord opcode data includeInChunks =>
    refine reply ?_
    rw [writePrivateRecord]
    split
    · exact h
    · rw [Exec.bind_ok (Exec.get_run w)]
      split
      · exact hI.chunkRecord _ w h
      · exact hI.topRecord _ w h
  | startAttachment attachmentLength header =>
    exact reply (hI.startAttachment attachmentLength header w h)
  | putAttachmentBytes bytes => exact reply (hI.putAttachmentBytes bytes w h)
  | finishAttachment => exact reply (hI.finishAttachment w h)
  | attach attachment =>
    exact reply (((hI.startAttachment _ _).bind fun _ => (hI.putAttachmentBytes _).bind fun _ =>
      hI.finishAttachment) w h)
  | writeMetadata metadata =>
    refine reply ?_
    rw [writeMetadata, ← Exec.bind_assoc]
    refine Exec.Preserves.bind (hI.onTop (rawKeeps_putMetadata metadata)) (fun r => ?_) w h
    exact .modify fun _ h => hI.of_slot h rfl rfl rfl rfl
  | flush => exact reply (hI.onTop rawKeeps_flushRaw w h)

end Slotted

/-! ## Before `finish`, and behind it -/

section
variable {front : Bytes} {indexes : List AttachmentIndex} {o : WriteOptions} {w : Writer σ Stream}

/-- **A writer that is not finished**: its stream begins with `front` and is at its end, and its
attachment indexes begin with `indexes`. -/
structure Live (front : Bytes) (indexes : List AttachmentIndex) (o : WriteOptions)
    (w : Writer σ Stream) : Prop where
  atEnd : w.AtEnd front
  unfinished : w.finishedSummary = none
  options : w.options = o
  indexed : indexes <+: w.attachmentIndexes

omit [Encoders σ] in
theorem Live.of_slot {w' : Writer σ Stream} (h : w.Live front indexes o)
    (hslot : ∀ mode, w'.writer = some mode → mode.AtEnd front)
    (hf : w'.finishedSummary = w.finishedSummary) (ho : w'.options = w.options)
    (hi : w.attachmentIndexes <+: w'.attachmentIndexes) : w'.Live front indexes o :=
  ⟨hslot, hf.trans h.unfinished, ho.trans h.options, h.indexed.trans hi⟩

omit [Encoders σ] in
theorem Live.put {w' : Writer σ Stream} (h : w.Live front indexes o) (mode : WriteMode σ Stream)
    (hmode : mode.AtEnd front) (hw : w'.writer = some mode)
    (hf : w'.finishedSummary = w.finishedSummary) (ho : w'.options = w.options)
    (hi : w.attachmentIndexes <+: w'.attachmentIndexes) : w'.Live front indexes o := by
  refine h.of_slot (fun mode' h' => ?_) hf ho hi
  rw [hw] at h'
  cases h'
  exact hmode

theorem live_startChunk : Exec.Preserves (Live front indexes o) (startChunk (σ := σ) (W := Stream)) := by
  intro w h
  rw [startChunk, Exec.bind_ok (assertNotFinished_run h.unfinished), Exec.bind_ok (Exec.get_run w)]
  rcases hmode : w.writer with _ | (c | c | a | s)
  case some.raw =>
    by_cases huse : w.options.useChunks = true
    · simp only [huse, Exec.bind_run, Exec.assert_true_run]
      rcases hnew : (ChunkWriter.new c w.options.compression w.chunkMode w.options.emitMessageIndexes
        w.options.calculateChunkCrcs w.options.compressionLevel w.options.compressionThreads :
        Res McapError (ChunkWriter σ Stream)) with chunk | e | _
      · exact h.put (.chunk chunk) (ChunkWriter.new_atEnd (h.atEnd _ hmode) hnew) rfl rfl
          rfl List.prefix_rfl
      · exact h.of_slot (fun _ hm => by cases hm) rfl rfl List.prefix_rfl
      · exact h
    · simp only [huse, Exec.bind_run, Exec.assert_false_run]
      exact h
  all_goals
    by_cases huse : w.options.useChunks = true <;>
      simp only [huse, Exec.bind_run, Exec.assert_true_run, Exec.assert_false_run] <;> exact h

theorem live_finishChunk : Exec.Preserves (Live front indexes o) (finishChunk (σ := σ) (W := Stream)) := by
  intro w h
  rw [finishChunk, Exec.bind_ok (assertNotFinished_run h.unfinished), Exec.bind_ok (Exec.get_run w)]
  rcases hmode : w.writer with _ | (c | c | a | s)
  case some.chunk =>
    simp only
    rcases hfin : c.finish with ⟨writer, mode, index⟩ | ⟨stream, e⟩ | _
    · exact h.put (.raw writer) (ChunkWriter.finish_atEnd (h.atEnd _ hmode) hfin) rfl rfl
        rfl List.prefix_rfl
    · exact h.put (.failed stream) trivial rfl rfl rfl List.prefix_rfl
    · exact h
  all_goals exact h

omit [Encoders σ] in
theorem live_onChunk {f : ChunkWriter σ Stream →
    Res (McapError × ChunkWriter σ Stream) (ChunkWriter σ Stream)} (hf : ChunkKeeps f) :
    Exec.Preserves (Live front indexes o) (onChunk f) := by
  intro w h
  rw [onChunk]
  split
  · rename_i c hc
    split
    · exact h.put (.chunk _) (hf front c _ (h.atEnd _ hc) (.inl ‹_›)) rfl rfl rfl List.prefix_rfl
    · exact h.put (.chunk _) (hf front c _ (h.atEnd _ hc) (.inr ⟨_, ‹_›⟩)) rfl rfl
        rfl List.prefix_rfl
    · exact h
  · exact h

omit [Encoders σ] in
theorem live_onRaw {f : CountingCrcWriter Stream →
    Res (McapError × CountingCrcWriter Stream) (α × CountingCrcWriter Stream)} (hf : RawKeeps f) :
    Exec.Preserves (Live front indexes o) (onRaw (σ := σ) f) := by
  intro w h
  rw [onRaw]
  split
  · rename_i c hc
    split
    · exact h.put (.raw _) (hf front c _ (h.atEnd _ hc) (.inl ⟨_, ‹_›⟩)) rfl rfl
        rfl List.prefix_rfl
    · exact h.put (.raw _) (hf front c _ (h.atEnd _ hc) (.inr ⟨_, ‹_›⟩)) rfl rfl rfl List.prefix_rfl
    · exact h
  · exact h

theorem live_startAttachment (length : UInt64) (header : AttachmentHeader) :
    Exec.Preserves (Live front indexes o) (startAttachment (σ := σ) (W := Stream) length header) := by
  refine live_finishChunk.bind fun _ w h => ?_
  rw [Exec.bind_ok (Exec.get_run w)]
  rcases hmode : w.writer with _ | (c | c | a | s)
  case some.raw =>
    simp only
    rcases hnew : AttachmentWriter.new c length header w.options.calculateAttachmentCrcs with
      a | e | _
    · exact h.put (.attachment a) (AttachmentWriter.new_atEnd (h.atEnd _ hmode) hnew) rfl rfl
        rfl List.prefix_rfl
    · exact h.of_slot (fun _ hm => by cases hm) rfl rfl List.prefix_rfl
    · exact h
  all_goals exact h

omit [Encoders σ] in
theorem live_putAttachmentBytes (bytes : Bytes) :
    Exec.Preserves (Live front indexes o) (putAttachmentBytes (σ := σ) (W := Stream) bytes) := by
  intro w h
  rw [putAttachmentBytes]
  split
  · rename_i a ha
    have hk : ∀ a', (a.putBytes bytes = .ok a' ∨ ∃ e, a.putBytes bytes = .err (e, a')) →
        a'.AtEnd front := fun a' => AttachmentWriter.putBytes_atEnd (h.atEnd _ ha)
    split
    · exact h.put (.attachment _) (hk _ (.inl ‹_›)) rfl rfl rfl List.prefix_rfl
    · exact h.put (.attachment _) (hk _ (.inr ⟨_, ‹_›⟩)) rfl rfl rfl List.prefix_rfl
    · exact h
  · exact h

omit [Encoders σ] in
theorem live_finishAttachment :
    Exec.Preserves (Live front indexes o) (finishAttachment (σ := σ) (W := Stream)) := by
  intro w h
  rw [finishAttachment]
  split
  · rename_i a ha
    split
    · refine h.put (.raw _) (AttachmentWriter.finish_atEnd (h.atEnd _ ha) ‹_›) rfl rfl rfl ?_
      -- the index is added behind the others
      show _ <+: if _ then _ else _
      split
      · exact List.prefix_append ..
      · exact List.prefix_rfl
    · exact h.of_slot (fun _ hm => by cases hm) rfl rfl List.prefix_rfl
    · exact h
  · exact h

/-- **A writer that is not finished keeps its stream at its end.** -/
theorem slotted_live : Slotted (Live (σ := σ) front indexes o) where
  of_slot h hw hf ho hi := h.of_slot (fun mode hm => h.atEnd mode (hw ▸ hm)) hf ho
    (hi ▸ List.prefix_rfl)
  finishChunk := live_finishChunk
  inChunk hf := live_startChunk.bind fun _ => live_onChunk hf
  onTop hf := live_finishChunk.bind fun _ => live_onRaw hf
  startAttachment := live_startAttachment
  putAttachmentBytes := live_putAttachmentBytes
  finishAttachment := live_finishAttachment

/-- **A writer that has been finished**: its summary is recorded, and `c` is in its slot. -/
structure Closed (summary : Summary) (c : CountingCrcWriter Stream) (w : Writer σ Stream) : Prop where
  finished : w.finishedSummary = some summary
  slot : w.writer = some (.raw c)

omit [Encoders σ] in
theorem Closed.unusable {summary : Summary} {c : CountingCrcWriter Stream} (h : w.Closed summary c) :
    ¬ w.Usable := by
  rintro ⟨-, hnone⟩
  rw [h.finished] at hnone
  cases hnone

/-- **A finished writer is left as it is**: a call on its stream panics. -/
theorem slotted_closed {summary : Summary} {c : CountingCrcWriter Stream} :
    Slotted (Closed (σ := σ) summary c) where
  of_slot h hw hf _ _ := ⟨hf.trans h.finished, hw.trans h.slot⟩
  finishChunk w h := by
    rw [finishChunk_panic h.unusable]
    exact h
  inChunk _ w h := by
    rw [Exec.bind_panic (startChunk_panic h.unusable)]
    exact h
  onTop _ w h := by
    rw [Exec.bind_panic (finishChunk_panic h.unusable)]
    exact h
  startAttachment length header w h := by
    rw [startAttachment, Exec.bind_panic (finishChunk_panic h.unusable)]
    exact h
  putAttachmentBytes bytes w h := by
    simp only [putAttachmentBytes, h.slot]
    exact h
  finishAttachment w h := by
    simp only [finishAttachment, h.slot]
    exact h

end
end Writer
end Mcap

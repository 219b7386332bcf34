import Mcap.ReaderSpec

/-! # A decompressor for stored LZ4 frames

The part of the LZ4 frame format that a decoder needs for frames of uncompressed
blocks without checksums: a frame header of seven bytes, blocks that are a
four-byte size with the top bit set and the data, and an end mark of four zero
bytes.  `Stored` steps through such a frame byte by byte, and asks for input as
`LZ4F_decompress` does: what is left of the current block and the next block
header.  As in `lz4.rs`, a new decompressor asks for thirteen bytes, and a reset
leaves the size it asked for last.

`storedLz4` is a `Decompressor` that can be run, and `storedDecoding` says that
it decodes a frame however it is called.
-/
namespace Mcap

/-- Where a decoder stands in a frame. -/
inductive Stage
  /-- `k` bytes of the frame header are read. -/
  | start (k : Nat)
  /-- The bytes read of a block header. -/
  | header (stored : Bytes)
  /-- `left + 1` bytes of a block are left. -/
  | block (left : Nat)
  | finished
  | bad
deriving DecidableEq

namespace Stage

/-- The frame header: magic, flags, block size, and the checksum of the two. -/
def FRAME_HEADER : Bytes := [0x04, 0x22, 0x4D, 0x18, 0x60, 0x40, 0x82]

/-- A frame of stored blocks. -/
def storedFrame (blocks : List Bytes) : Bytes :=
  FRAME_HEADER ++ blocks.flatMap (fun b => le 4 (2 ^ 31 + b.length) ++ b) ++ le 4 0

/-- The stage after a whole block header. -/
def ofHeader (size : Nat) : Stage :=
  if size = 0 then .finished
  else if size < 2 ^ 31 then .bad
  else match size - 2 ^ 31 with
    | 0 => .header []
    | left + 1 => .block left

/-- One byte of a frame: the next stage, and the byte written, if any. -/
def step : Stage → UInt8 → Stage × Bytes
  | .start k, b =>
      if FRAME_HEADER[k]? = some b then
        (if k + 1 = FRAME_HEADER.length then .header [] else .start (k + 1), [])
      else (.bad, [])
  | .header stored, b =>
      (if stored.length + 1 = 4 then ofHeader (ofLe (stored ++ [b])) else .header (stored ++ [b]), [])
  | .block 0, b => (.header [], [b])
  | .block (left + 1), b => (.block left, [b])
  | .finished, _ => (.finished, [])
  | .bad, _ => (.bad, [])

/-- The decoder stops before it looks at the next byte: the frame is over, or there
is no room for the byte. -/
def stops : Stage → Nat → Bool
  | .finished, _ => true
  | .bad, _ => true
  | .block _, n => n = 0
  | _, _ => false

/-- Decode `src` into `n` bytes of room: the stage reached, the number of bytes
consumed and the bytes written. -/
def run : Stage → Bytes → Nat → Stage × Nat × Bytes
  | st, [], _ => (st, 0, [])
  | st, b :: src, n =>
      if st.stops n then (st, 0, [])
      else
        let (st', out) := st.step b
        let res := run st' src (n - out.length)
        (res.1, res.2.1 + 1, out ++ res.2.2)

/-- The input size `LZ4F_decompress` asks for. -/
def hint : Stage → Nat
  | .start k => FRAME_HEADER.length - k + 4
  | .header stored => 4 - stored.length
  | .block left => left + 1 + 4
  | .finished => 0
  | .bad => 0

theorem step_room {st : Stage} {n : Nat} (h : st.stops n = false) (b : UInt8) :
    (st.step b).2.length ≤ n := by
  cases st with
  | start k => simp only [step]; split <;> simp
  | header stored => simp [step]
  | block left =>
    have hn : n ≠ 0 := by simpa [stops] using h
    cases left <;> simp only [step, List.length_singleton] <;> omega
  | finished => cases h
  | bad => cases h

theorem run_cons {st : Stage} {n : Nat} (h : st.stops n = false) (b : UInt8) (src : Bytes) :
    st.run (b :: src) n =
      (((st.step b).1.run src (n - (st.step b).2.length)).1,
        ((st.step b).1.run src (n - (st.step b).2.length)).2.1 + 1,
        (st.step b).2 ++ ((st.step b).1.run src (n - (st.step b).2.length)).2.2) :=
  if_neg (by simp [h])

theorem run_stop {st : Stage} {n : Nat} (h : st.stops n = true) (src : Bytes) :
    st.run src n = (st, 0, []) := by
  cases src with
  | nil => rfl
  | cons b src => exact if_pos h

theorem run_consumed_le (st : Stage) (src : Bytes) (n : Nat) : (st.run src n).2.1 ≤ src.length := by
  induction src generalizing st n with
  | nil => exact Nat.zero_le _
  | cons b src ih =>
    cases hs : st.stops n with
    | true => simp [run_stop hs]
    | false =>
      rw [run_cons hs]
      exact Nat.succ_le_succ (ih _ _)

theorem run_wrote_le (st : Stage) (src : Bytes) (n : Nat) : (st.run src n).2.2.length ≤ n := by
  induction src generalizing st n with
  | nil => exact Nat.zero_le _
  | cons b src ih =>
    cases hs : st.stops n with
    | true => simp [run_stop hs]
    | false =>
      have hroom := step_room hs b
      have := ih (st.step b).1 (n - (st.step b).2.length)
      rw [run_cons hs, List.length_append]
      omega

end Stage

/-- `Lz4Decoder`. -/
structure Stored where
  stage : Stage
  nextReadSize : Nat
deriving DecidableEq

/-- `Lz4Decoder::decompress`. -/
def Stored.decompress (d : Stored) (src : Bytes) (n : Nat) :
    Stored × Except McapError DecompressResult :=
  let (st, consumed, wrote) := d.stage.run src n
  if st = .bad then (d, .error (.decompressionError "lz4"))
  else (⟨st, st.hint⟩, .ok ⟨consumed, wrote⟩)

theorem Stored.decompress_ok {d d' : Stored} {src : Bytes} {n : Nat} {res : DecompressResult}
    (h : d.decompress src n = (d', .ok res)) :
    (d.stage.run src n).1 ≠ .bad ∧ d' = ⟨(d.stage.run src n).1, (d.stage.run src n).1.hint⟩ ∧
      res = ⟨(d.stage.run src n).2.1, (d.stage.run src n).2.2⟩ := by
  unfold Stored.decompress at h
  simp only at h
  split at h
  · cases h
  · rename_i hb
    cases h
    exact ⟨hb, rfl, rfl⟩

/-- The decompressors of a reader of stored LZ4 frames, which has none for zstd. -/
def storedLz4 : Decompressor Stored where
  newZstd := ⟨.bad, 0⟩
  newLz4 := .ok ⟨.start 0, 13⟩
  nextReadSize := Stored.nextReadSize
  decompress := Stored.decompress
  reset d := (⟨.start 0, d.nextReadSize⟩, .ok ())
  name _ := "lz4"
  consumed_le := by
    intro d src n d' res h
    obtain ⟨-, -, rfl⟩ := Stored.decompress_ok h
    exact Stage.run_consumed_le _ _ _
  wrote_le := by
    intro d src n d' res h
    obtain ⟨-, -, rfl⟩ := Stored.decompress_ok h
    exact Stage.run_wrote_le _ _ _

/-! ## Output as a function of input -/

namespace Stage

/-- What a decoder at this stage writes for the bytes `x`, given room. -/
def output : Stage → Bytes → Bytes
  | _, [] => []
  | st, b :: x => (st.step b).2 ++ output (st.step b).1 x

/-- The stage after the bytes `x`. -/
def after : Stage → Bytes → Stage
  | st, [] => st
  | st, b :: x => after (st.step b).1 x

theorem output_append (st : Stage) (x y : Bytes) :
    st.output (x ++ y) = st.output x ++ (st.after x).output y := by
  induction x generalizing st with
  | nil => rfl
  | cons b x ih => simp only [List.cons_append, output, after, ih, List.append_assoc]

theorem after_append (st : Stage) (x y : Bytes) : st.after (x ++ y) = (st.after x).after y := by
  induction x generalizing st with
  | nil => rfl
  | cons b x ih => simp only [List.cons_append, after, ih]

theorem run_eq (st : Stage) (src : Bytes) (n : Nat) :
    (st.run src n).1 = st.after (src.take (st.run src n).2.1) ∧
      (st.run src n).2.2 = st.output (src.take (st.run src n).2.1) := by
  induction src generalizing st n with
  | nil => exact ⟨rfl, rfl⟩
  | cons b src ih =>
    cases hs : st.stops n with
    | true => rw [run_stop hs]; exact ⟨rfl, rfl⟩
    | false =>
      obtain ⟨h1, h2⟩ := ih (st.step b).1 (n - (st.step b).2.length)
      rw [run_cons hs]
      simp only [List.take_succ_cons, after, output]
      exact ⟨h1, by rw [← h2]⟩

end Stage

/-- A sequence of successful calls: the bytes consumed and the bytes written. -/
inductive Calls {δ : Type} (D : Decompressor δ) : δ → Bytes → Bytes → Prop
  | nil {d} : Calls D d [] []
  | call {d d' src n res x y} : D.decompress d src n = (d', .ok res) → Calls D d' x y →
      Calls D d (src.take res.consumed ++ x) (res.wrote ++ y)

/-- **The cumulative output depends only on the cumulative input.** -/
def Cumulative {δ : Type} (D : Decompressor δ) : Prop :=
  ∀ d, ∃ decode : Bytes → Bytes, ∀ x y, Calls D d x y → y = decode x

theorem storedLz4_cumulative : Cumulative storedLz4 := by
  intro d
  refine ⟨d.stage.output, fun x y h => ?_⟩
  induction h with
  | nil => rfl
  | call hd _ ih =>
    obtain ⟨-, rfl, rfl⟩ := Stored.decompress_ok hd
    obtain ⟨h1, h2⟩ := Stage.run_eq _ _ _
    rw [Stage.output_append, ← h1, ← h2, ih]

/-! ## Whole frames -/

namespace Stage

theorem after_bad (x : Bytes) : Stage.bad.after x = .bad := by
  induction x with
  | nil => rfl
  | cons b x ih => exact ih

theorem output_finished (x : Bytes) : Stage.finished.output x = [] := by
  induction x with
  | nil => rfl
  | cons b x ih => exact ih

theorem after_header_ne {stored : Bytes} (h : 4 ≤ stored.length) (x : Bytes) :
    (Stage.header stored).after x ≠ .finished := by
  induction x generalizing stored with
  | nil => simp [after]
  | cons b x ih =>
    have hne : ¬ stored.length + 1 = 4 := by omega
    simp only [after, step, if_neg hne]
    exact ih (by rw [List.length_append]; omega)

theorem hint_step {st : Stage} {b : UInt8} (h : (st.step b).1 ≠ .bad) :
    st.hint ≤ (st.step b).1.hint + 1 := by
  cases st with
  | start k =>
    simp only [step] at h ⊢
    split at h
    · rename_i hk
      have hlt : k < FRAME_HEADER.length := by
        by_contra hge
        rw [List.getElem?_eq_none (by omega)] at hk
        cases hk
      rw [if_pos hk]
      split
      · simp only [hint, List.length_nil]
        omega
      · simp only [hint]
        omega
    · exact absurd rfl h
  | header stored =>
    simp only [step] at h ⊢
    split
    · simp only [hint]
      omega
    · simp only [hint, List.length_append, List.length_singleton]
      omega
  | block left => cases left <;> simp [step, hint]
  | finished => simp [hint]
  | bad => simp [hint]

theorem hint_le {st : Stage} {c : Bytes} (h : st.after c = .finished) : st.hint ≤ c.length := by
  induction c generalizing st with
  | nil =>
    obtain rfl : st = .finished := h
    exact Nat.le_refl _
  | cons b c ih =>
    have hb : (st.step b).1 ≠ .bad := by
      intro hbad
      rw [after, hbad, after_bad] at h
      cases h
    have := hint_step hb
    have := ih h
    rw [List.length_cons]
    omega

theorem hint_pos {st : Stage} {c : Bytes} (h : st.after c = .finished) (hout : st.output c ≠ []) :
    0 < st.hint := by
  cases st with
  | start k => simp [hint]
  | header stored =>
    by_contra h0
    exact after_header_ne (by simp only [hint] at h0; omega) c h
  | block left => simp [hint]
  | finished => exact absurd (output_finished c) hout
  | bad =>
    rw [after_bad] at h
    cases h

theorem run_progress {st : Stage} {c src : Bytes} {n : Nat} (h : st.after c = .finished)
    (hout : st.output c ≠ []) (hn : 0 < n) (h0 : (st.run src n).2.1 = 0) : src = [] := by
  cases src with
  | nil => rfl
  | cons b src =>
    have hs : st.stops n = false := by
      cases st with
      | start k => rfl
      | header stored => rfl
      | block left => simp only [stops, decide_eq_false_iff_not]; omega
      | finished => exact absurd (output_finished c) hout
      | bad =>
        rw [after_bad] at h
        cases h
    rw [run_cons hs] at h0
    cases h0

end Stage

/-- The decompressor has the frame bytes `c` to read and `out` to write. -/
structure Stored.Mid (d : Stored) (c out : Bytes) : Prop where
  after : d.stage.after c = .finished
  output : d.stage.output c = out
  le : d.nextReadSize ≤ c.length
  size : d.nextReadSize = d.stage.hint ∨ (d.stage = .start 0 ∧ d.nextReadSize ≤ 13)

theorem Stored.Mid.call {d : Stored} {c out src rest : Bytes} {n : Nat} (h : d.Mid c out)
    (hc : c = src ++ rest) (hn : 0 < n) (hne : out ≠ []) :
    ∃ d' res c' out', d.decompress src n = (d', .ok res) ∧ c = c.take res.consumed ++ c' ∧
      out = res.wrote ++ out' ∧ d'.Mid c' out' ∧
      (res.consumed = 0 → res.wrote = [] → src.length < d'.nextReadSize) := by
  obtain ⟨hst, hw⟩ := Stage.run_eq d.stage src n
  have hle := Stage.run_consumed_le d.stage src n
  have htake : src.take (d.stage.run src n).2.1 = c.take (d.stage.run src n).2.1 := by
    rw [hc, List.take_append_of_le_length hle]
  rw [htake] at hst hw
  have hafter : (d.stage.run src n).1.after (c.drop (d.stage.run src n).2.1) = .finished := by
    rw [hst, ← Stage.after_append, List.take_append_drop]
    exact h.after
  have hbad : (d.stage.run src n).1 ≠ .bad := by
    intro hb
    rw [hb, Stage.after_bad] at hafter
    cases hafter
  refine ⟨⟨_, (d.stage.run src n).1.hint⟩, ⟨(d.stage.run src n).2.1, (d.stage.run src n).2.2⟩,
    c.drop (d.stage.run src n).2.1,
    (d.stage.run src n).1.output (c.drop (d.stage.run src n).2.1), ?_,
    (List.take_append_drop _ _).symm, ?_, ⟨hafter, rfl, Stage.hint_le hafter, .inl rfl⟩, ?_⟩
  · unfold Stored.decompress
    simp only
    rw [if_neg hbad]
  · rw [← h.output, hst, hw, ← Stage.output_append, List.take_append_drop]
  · intro h0 _
    simp only at h0
    have hsrc : src = [] := Stage.run_progress h.after (by rw [h.output]; exact hne) hn h0
    have hsame : (d.stage.run src n).1 = d.stage := by rw [hst, h0]; rfl
    show src.length < (d.stage.run src n).1.hint
    rw [hsame, hsrc]
    exact Stage.hint_pos h.after (by rw [h.output]; exact hne)

theorem Stored.Mid.le_thirteen {d : Stored} {c : Bytes} (h : d.Mid c []) : d.nextReadSize ≤ 13 := by
  rcases h.size with hsize | ⟨-, hsize⟩
  · rw [hsize]
    cases hst : d.stage with
    | start k => simp only [Stage.hint, Stage.FRAME_HEADER, List.length_cons, List.length_nil]; omega
    | header stored => simp only [Stage.hint]; omega
    | block left =>
      have hout := h.output
      have hafter := h.after
      rw [hst] at hout hafter
      cases c with
      | nil => cases hafter
      | cons b c => cases left <;> simp [Stage.output, Stage.step] at hout
    | finished | bad => simp [Stage.hint]
  · exact hsize

/-- **Stored frames are decoded however the decompressor is called.** -/
def storedDecoding : Decoding storedLz4 none where
  Fresh name d := name = "lz4" → d.stage = .start 0 ∧ d.nextReadSize ≤ 13
  Mid name d c out := name = "lz4" ∧ d.Mid c out
  zstd := by
    intro h
    exact absurd h (by decide)
  lz4 := by
    rintro d h -
    obtain rfl := Except.ok.inj h
    exact ⟨rfl, Nat.le_refl _⟩
  hint h := h.2.le
  call := by
    rintro name d c out src rest n ⟨rfl, h⟩ hc _ hn hne
    obtain ⟨d', res, c', out', hd, h1, h2, h3, h4⟩ := h.call hc hn hne
    exact ⟨d', res, c', out', hd, h1, h2, ⟨rfl, h3⟩, h4⟩
  tail := by
    intro name d c l _ h
    cases h
  reset := by
    rintro name d c ⟨rfl, h⟩
    exact ⟨⟨.start 0, d.nextReadSize⟩, rfl, rfl, fun _ => ⟨rfl, h.le_thirteen⟩⟩

/-- What a stored frame unpacks to. -/
def unpackStored (name : String) (c : Bytes) : Option Bytes :=
  if name = "lz4" ∧ (Stage.start 0).after c = .finished ∧ 13 ≤ c.length then
    some ((Stage.start 0).output c)
  else none

theorem unpacks_stored {name : String} {c out : Bytes} (h : unpackStored name c = some out) :
    Unpacks storedDecoding name c out := by
  unfold unpackStored at h
  split at h
  · rename_i hc
    obtain ⟨rfl, hafter, hlen⟩ := hc
    rintro d hd
    obtain ⟨hst, hsize⟩ := hd rfl
    obtain rfl := Option.some.inj h
    exact ⟨rfl, by rw [hst]; exact hafter, by rw [hst], hsize.trans hlen, .inr ⟨hst, hsize⟩⟩
  · cases h

theorem unpacks_stored_unique {name : String} {c out out' : Bytes}
    (h : Unpacks storedDecoding name c out) (h' : Unpacks storedDecoding name c out') :
    out = out' := by
  have hd : storedDecoding.Fresh name ⟨.start 0, 13⟩ := fun _ => ⟨rfl, Nat.le_refl _⟩
  rw [← (h _ hd).2.output, ← (h' _ hd).2.output]

end Mcap

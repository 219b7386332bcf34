import Mcap.FileReading
import Mcap.StoredLz4

/-! # Codecs that store

Encoders that take everything and compress nothing: at the end they emit a frame of stored
blocks, one for each byte.  They do not fail, and `storedCodecs` decodes what they emit, under
either name (`lossless_storing`).
-/
namespace Mcap

/-- Decompressors for stored frames under both names. -/
def storedCodecs : Decompressor (String × Stored) where
  newZstd := ("zstd", ⟨.start 0, 13⟩)
  newLz4 := .ok ("lz4", ⟨.start 0, 13⟩)
  nextReadSize d := d.2.nextReadSize
  decompress d src n := ((d.1, (d.2.decompress src n).1), (d.2.decompress src n).2)
  reset d := ((d.1, ⟨.start 0, d.2.nextReadSize⟩), .ok ())
  name := Prod.fst
  consumed_le := by
    intro d src n d' res h
    have hres : (d.2.decompress src n).2 = .ok res := congrArg Prod.snd h
    have hd : storedLz4.decompress d.2 src n = (_, .ok res) := Prod.ext rfl hres
    exact storedLz4.consumed_le hd
  wrote_le := by
    intro d src n d' res h
    have hres : (d.2.decompress src n).2 = .ok res := congrArg Prod.snd h
    have hd : storedLz4.decompress d.2 src n = (_, .ok res) := Prod.ext rfl hres
    exact storedLz4.wrote_le hd

/-- They decode a frame however they are called. -/
def storedCodecsDecoding : Decoding storedCodecs none where
  Fresh name d := d.1 = name ∧ d.2.stage = .start 0 ∧ d.2.nextReadSize ≤ 13
  Mid name d c out := d.1 = name ∧ d.2.Mid c out
  zstd := ⟨rfl, rfl, Nat.le_refl _⟩
  lz4 := by
    intro d h
    obtain rfl := Except.ok.inj h
    exact ⟨rfl, rfl, Nat.le_refl _⟩
  hint h := h.2.le
  call := by
    rintro name d c out src rest n ⟨rfl, h⟩ hc _ hn hne
    obtain ⟨d', res, c', out', hd, h1, h2, h3, h4⟩ := h.call hc hn hne
    refine ⟨(d.1, d'), res, c', out', ?_, h1, h2, ⟨rfl, h3⟩, h4⟩
    show ((d.1, (d.2.decompress src n).1), (d.2.decompress src n).2) = _
    rw [hd]
  tail := by
    intro name d c l _ h
    cases h
  reset := by
    rintro name d c ⟨rfl, h⟩
    exact ⟨(d.1, ⟨.start 0, d.2.nextReadSize⟩), rfl, rfl, rfl, rfl, h.le_thirteen⟩

/-- An encoder, and what it has taken. -/
structure Storing where
  data : Bytes
deriving DecidableEq

/-- The frame that holds these bytes. -/
def storingFrame (data : Bytes) : Bytes := Stage.storedFrame ([] :: data.map fun b => [b])

instance : Encoders Storing where
  newZstd _ _ := .ok ⟨[]⟩
  newLz4 _ := .ok (⟨[]⟩, [])
  write encoder b := .ok (⟨encoder.data ++ b⟩, [])
  finish encoder := .ok (storingFrame encoder.data)

theorem reliable_storing : Coder.Reliable Storing where
  newZstd _ _ _ h := by cases h
  newLz4 _ _ h := by cases h
  write _ _ _ h := by cases h
  finish _ _ h := by cases h

theorem blocks_decoded (data : Bytes) (rest : Bytes) :
    (Stage.header []).after ((data.map fun b => [b]).flatMap
        (fun b => le 4 (2 ^ 31 + b.length) ++ b) ++ rest) = (Stage.header []).after rest ∧
      (Stage.header []).output ((data.map fun b => [b]).flatMap
        (fun b => le 4 (2 ^ 31 + b.length) ++ b) ++ rest) = data ++ (Stage.header []).output rest := by
  induction data with
  | nil => exact ⟨rfl, rfl⟩
  | cons b data ih =>
    have hsize : (Stage.header []).after (le 4 (2 ^ 31 + [b].length)) = .block 0 ∧
        (Stage.header []).output (le 4 (2 ^ 31 + [b].length)) = [] := by
      show (Stage.header []).after (le 4 (2 ^ 31 + 1)) = .block 0 ∧
        (Stage.header []).output (le 4 (2 ^ 31 + 1)) = []
      decide
    rw [List.map_cons, List.flatMap_cons, List.append_assoc, List.append_assoc, Stage.after_append,
      Stage.output_append, hsize.1, hsize.2]
    exact ⟨ih.1, congrArg (b :: ·) ih.2⟩

theorem storingFrame_decoded (data : Bytes) : (Stage.start 0).after (storingFrame data) = .finished ∧
    (Stage.start 0).output (storingFrame data) = data ∧ 13 ≤ (storingFrame data).length := by
  obtain ⟨hafter, hout⟩ := blocks_decoded data (le 4 0)
  have hframe : storingFrame data = (Stage.FRAME_HEADER ++ le 4 (2 ^ 31)) ++
      ((data.map fun b => [b]).flatMap (fun b => le 4 (2 ^ 31 + b.length) ++ b) ++ le 4 0) := by
    simp [storingFrame, Stage.storedFrame]
  have hstart : (Stage.start 0).after (Stage.FRAME_HEADER ++ le 4 (2 ^ 31)) = .header [] ∧
      (Stage.start 0).output (Stage.FRAME_HEADER ++ le 4 (2 ^ 31)) = [] := by decide
  have hend : (Stage.header []).after (le 4 0) = .finished ∧
      (Stage.header []).output (le 4 0) = [] := by decide
  rw [hframe]
  refine ⟨?_, ?_, ?_⟩
  · rw [Stage.after_append, hstart.1, hafter, hend.1]
  · rw [Stage.output_append, hstart.1, hstart.2, hout, hend.2, List.append_nil, List.nil_append]
  · have hlen : (Stage.FRAME_HEADER ++ le 4 (2 ^ 31)).length = 11 := by decide
    rw [List.length_append, hlen, List.length_append, length_le]
    omega

theorem Coder.Took.storing {compression : Option Compression} {level threads : UInt32}
    {data out : Bytes} {coder : Coder Storing} (hne : compression ≠ none)
    (h : Coder.Took compression level threads data coder out) :
    out = [] ∧ (coder = .zstd ⟨data⟩ ∨ coder = .lz4 ⟨data⟩) := by
  induction h with
  | start hs =>
    rcases compression with _ | _ | _
    · exact absurd rfl hne
    · cases hs
      exact ⟨rfl, .inl rfl⟩
    · cases hs
      exact ⟨rfl, .inr rfl⟩
  | push _ hp ih =>
    obtain ⟨rfl, rfl | rfl⟩ := ih
    · cases hp
      exact ⟨rfl, .inl rfl⟩
    · cases hp
      exact ⟨rfl, .inr rfl⟩

/-- **Nothing is lost.** -/
theorem lossless_storing : Lossless Storing storedCodecsDecoding where
  unpacks {compression level threads data out x coder} hne htook hfin := by
    obtain ⟨rfl, hcoder⟩ := htook.storing hne
    have hx : x = storingFrame data := by
      rcases hcoder with rfl | rfl
      · cases hfin
        rfl
      · cases hfin
        rfl
    obtain ⟨hafter, hout, hlen⟩ := storingFrame_decoded data
    rintro ⟨name, d⟩ ⟨hname, hstage, hsize⟩
    rw [hx, List.nil_append]
    refine ⟨hname, ?_, ?_, hsize.trans hlen, .inr ⟨hstage, hsize⟩⟩
    · rw [hstage]
      exact hafter
    · rw [hstage]
      exact hout
  lz4 := ⟨_, rfl⟩

end Mcap

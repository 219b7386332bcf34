import Mcap.IntactInput

/-! # Input that goes on

A turn of the reader looks only at the bytes it takes.  So a turn that does not run into the
end of the input is the same with more bytes behind it (`Spec.turn_append`), and so is a run
up to any point (`Yields.append`).
-/
namespace Mcap
open LinearReader (opcodeAndLen MIN_CHUNK_HEADER_SIZE)

variable {δ : Type} {D : Decompressor δ} {o : LinearReaderOptions}

/-- The reader, with more input behind. -/
def Spec.append (s : Spec) (rest : Bytes) : Spec := { s with bytes := s.bytes ++ rest }

/-- The turn, with more input behind. -/
def SpecTurn.append (rest : Bytes) : SpecTurn → SpecTurn
  | .again s => .again (s.append rest)
  | .record opcode data s => .record opcode data (s.append rest)
  | .packed name size c n k => .packed name size c n fun out => (k out).append rest
  | t => t

/-- The turn has all the bytes it needs. -/
def SpecTurn.Whole : SpecTurn → Prop
  | .eof => False
  | .packed _ size c _ _ => c.length = size
  | _ => True

namespace Spec
variable {s : Spec} (rest : Bytes) {c : OpenChunk}

theorem need_append {n : Nat} {k k' : SpecTurn} (hw : (s.need n k).Whole)
    (hk : n ≤ s.bytes.length → k.Whole → k' = k.append rest) :
    (s.append rest).need n k' = (s.need n k).append rest := by
  by_cases hlen : s.bytes.length < n
  · rw [need, if_pos hlen] at hw
    exact hw.elim
  · have hle : n ≤ (s.append rest).bytes.length := by
      simp only [append, List.length_append]
      omega
    have hle' := Nat.not_lt.mp hlen
    rw [need_of_le hle'] at hw
    rw [need_of_le hle, need_of_le hle', hk hle' hw]

theorem take_append {n : Nat} (h : n ≤ s.bytes.length) :
    (s.append rest).bytes.take n = s.bytes.take n :=
  List.take_append_of_le_length h

theorem drop_append {n : Nat} (h : n ≤ s.bytes.length) :
    (s.append rest).bytes.drop n = s.bytes.drop n ++ rest :=
  List.drop_append_of_le_length h

theorem skip_more {n : Nat} (h : n ≤ s.bytes.length) :
    (s.append rest).skip n = (s.skip n).append rest := by
  simp only [skip, append, List.take_append_of_le_length h, List.drop_append_of_le_length h]

theorem startMagic_append (hw : (s.startMagic o).Whole) :
    (s.append rest).startMagic o = (s.startMagic o).append rest := by
  unfold startMagic at hw ⊢
  by_cases hskip : o.skipStartMagic = true
  · simp only [hskip, if_true]
    rfl
  · rw [if_neg hskip] at hw
    rw [if_neg hskip, if_neg hskip]
    refine need_append rest hw fun hle _ => ?_
    rw [take_append rest hle, skip_more rest hle]
    split <;> rfl

theorem fileRecord_append (hw : (s.fileRecord o).Whole) :
    (s.append rest).fileRecord o = (s.fileRecord o).append rest := by
  unfold fileRecord at hw ⊢
  refine need_append rest hw fun hle hw => ?_
  rw [take_append rest hle]
  rcases hop : opcodeAndLen (s.bytes.take OPCODE_LEN_SIZE) with ⟨opcode, len⟩
  rw [hop] at hw
  simp only at hw ⊢
  split at hw
  · rename_i hchunk
    rw [if_pos hchunk, if_pos hchunk, skip_more rest hle]
    rfl
  rename_i hchunk
  rw [if_neg hchunk, if_neg hchunk]
  split at hw
  · rename_i hend
    rw [if_pos hend, if_pos hend, drop_append rest hle]
    rfl
  rename_i hend
  rw [if_neg hend, if_neg hend]
  split at hw
  · rename_i hfooter
    rw [if_pos hfooter, if_pos hfooter, drop_append rest hle]
    rfl
  rename_i hfooter
  rw [if_neg hfooter, if_neg hfooter]
  generalize checkLen len o.recordLengthLimit = admitted at hw ⊢
  rcases admitted with _ | len
  · rfl
  simp only at hw ⊢
  split at hw
  · rename_i hbig
    rw [if_pos hbig, if_pos hbig]
    rfl
  · rename_i hbig
    rw [if_neg hbig, if_neg hbig]
    refine need_append rest hw fun hle _ => ?_
    rw [take_append rest hle, skip_more rest hle]
    rfl

theorem dataEnd_append {len : Nat} {calculated : Option UInt32}
    (hw : (s.dataEnd o len calculated).Whole) :
    (s.append rest).dataEnd o len calculated = (s.dataEnd o len calculated).append rest := by
  unfold dataEnd at hw ⊢
  generalize checkLen len o.recordLengthLimit = admitted at hw ⊢
  rcases admitted with _ | len
  · rfl
  refine need_append rest hw fun hle _ => ?_
  rw [take_append rest hle]
  rcases readLeFrom DataEnd.read (s.bytes.take len) with e | ⟨rec, c⟩
  · rfl
  simp only [drop_append rest hle]
  rcases calculated with _ | calculated
  · rfl
  · simp only
    split <;> rfl

theorem footer_append {len : Nat} {hasher : Option Hasher} (hw : (s.footer o len hasher).Whole) :
    (s.append rest).footer o len hasher = (s.footer o len hasher).append rest := by
  unfold footer at hw ⊢
  generalize checkLen len o.recordLengthLimit = admitted at hw ⊢
  rcases admitted with _ | len
  · rfl
  refine need_append rest hw fun hle _ => ?_
  rw [take_append rest hle]
  rcases readLeFrom Footer.read (s.bytes.take len) with e | ⟨f, c⟩
  · rfl
  simp only [skip_more rest hle]
  rcases hasher with _ | hasher
  · rfl
  · simp only
    split
    · rfl
    · split <;> rfl

theorem enterChunk_append {header : ChunkHeader} {padding : Nat}
    (hw : (enterChunk o s header padding).Whole) :
    enterChunk o (s.append rest) header padding = (enterChunk o s header padding).append rest := by
  unfold enterChunk at hw ⊢
  simp only at hw ⊢
  split at hw
  · rename_i hnone
    rw [if_pos hnone, if_pos hnone]
    rfl
  · rename_i hsome
    have hle : header.compressedSize.toNat ≤ s.bytes.length := by
      have htake := List.length_take_le header.compressedSize.toNat s.bytes
      have hlen : (s.bytes.take header.compressedSize.toNat).length =
        header.compressedSize.toNat := hw
      rw [List.length_take] at hlen
      omega
    rw [if_neg hsome, if_neg hsome, take_append rest hle, skip_more rest hle]
    rfl

theorem chunkHeader_append {len : Nat} (hw : (s.chunkHeader D o len).Whole) :
    (s.append rest).chunkHeader D o len = (s.chunkHeader D o len).append rest := by
  unfold chunkHeader at hw ⊢
  refine need_append rest hw fun hle hw => ?_
  have hlen : ((s.append rest).bytes.drop 28).take 4 = (s.bytes.drop 28).take 4 := by
    have h32 : 32 ≤ s.bytes.length := by
      simp only [MIN_CHUNK_HEADER_SIZE] at hle
      omega
    rw [drop_append rest (by omega), List.take_append_of_le_length]
    simp only [List.length_drop]
    omega
  rw [hlen]
  refine need_append rest hw fun hle hw => ?_
  rw [take_append rest hle]
  generalize readLeFrom ChunkHeader.read _ = read at hw ⊢
  rcases read with e | ⟨header, c⟩
  · rfl
  simp only at hw ⊢
  generalize available D header.compression = codec at hw ⊢
  rcases codec with e | _
  · rfl
  simp only at hw ⊢
  split at hw
  · rename_i h1
    rw [if_pos h1, if_pos h1]
    rfl
  rename_i h1
  rw [if_neg h1, if_neg h1]
  split at hw
  · rename_i h2
    rw [if_pos h2, if_pos h2]
    rfl
  rename_i h2
  rw [if_neg h2, if_neg h2]
  generalize checkLen _ o.recordLengthLimit = admitted at hw ⊢
  rcases admitted with _ | padding
  · rfl
  · simp only at hw ⊢
    rw [skip_more rest hle]
    exact enterChunk_append rest hw

theorem validatingPlain_append {remaining : Nat} (hw : (s.validatingPlain o remaining c).Whole) :
    (s.append rest).validatingPlain o remaining c =
      (s.validatingPlain o remaining c).append rest := by
  unfold validatingPlain at hw ⊢
  generalize checkLen remaining o.recordLengthLimit = admitted at hw ⊢
  rcases admitted with _ | toLoad
  · rfl
  refine need_append rest hw fun hle _ => ?_
  rw [take_append rest hle]
  simp only
  split <;> rfl

theorem validatingPacked_append {out : Bytes} :
    (s.append rest).validatingPacked o out c = (s.validatingPacked o out c).append rest := by
  unfold validatingPacked
  rcases checkLen out.length o.recordLengthLimit with _ | _
  · rfl
  simp only
  split
  · rfl
  · split <;> rfl

theorem plainChunk_append {remaining : Nat} (hw : (s.plainChunk o remaining c).Whole) :
    (s.append rest).plainChunk o remaining c = (s.plainChunk o remaining c).append rest := by
  unfold plainChunk at hw ⊢
  split at hw
  · rename_i h0
    rw [if_pos h0, if_pos h0]
    rfl
  rename_i h0
  rw [if_neg h0, if_neg h0]
  refine need_append rest hw fun hle hw => ?_
  rw [take_append rest hle]
  rcases hop : opcodeAndLen (s.bytes.take OPCODE_LEN_SIZE) with ⟨opcode, len⟩
  rw [hop] at hw
  simp only at hw ⊢
  generalize checkLen len o.recordLengthLimit = admitted at hw ⊢
  rcases admitted with _ | len
  · rfl
  simp only at hw ⊢
  split at hw
  · rename_i hbig
    rw [if_pos hbig, if_pos hbig]
    rfl
  rename_i hbig
  rw [if_neg hbig, if_neg hbig]
  refine need_append rest hw fun hle _ => ?_
  rw [take_append rest hle, skip_more rest hle]
  split <;> rfl

theorem packedChunk_append {out : Bytes} {base : Nat} {validated : Bool} :
    (s.append rest).packedChunk o out base validated c =
      (s.packedChunk o out base validated c).append rest := by
  unfold packedChunk
  split
  · rfl
  split
  · rfl
  split
  · rfl
  rcases opcodeAndLen (out.take OPCODE_LEN_SIZE) with ⟨opcode, len⟩
  simp only
  generalize checkLen len o.recordLengthLimit = admitted
  rcases admitted with _ | len
  · rfl
  simp only
  split
  · rfl
  split
  · rfl
  split <;> rfl

theorem paddingAfterChunk_append (hw : (s.paddingAfterChunk c).Whole) :
    (s.append rest).paddingAfterChunk c = (s.paddingAfterChunk c).append rest := by
  unfold paddingAfterChunk at hw ⊢
  refine need_append rest hw fun hle _ => ?_
  rw [skip_more rest hle]
  rcases c.hasher with _ | hasher
  · rfl
  · simp only
    split <;> rfl

theorem endMagic_append (hw : (s.endMagic o).Whole) :
    (s.append rest).endMagic o = (s.endMagic o).append rest := by
  unfold endMagic at hw ⊢
  by_cases hskip : o.skipEndMagic = true
  · rw [if_pos hskip, if_pos hskip]
    rfl
  · rw [if_neg hskip] at hw
    rw [if_neg hskip, if_neg hskip]
    refine need_append rest hw fun hle _ => ?_
    rw [take_append rest hle, skip_more rest hle]
    split <;> rfl

theorem afterEndMagic_append (hw : (s.afterEndMagic o).Whole) :
    (s.append rest).afterEndMagic o = (s.afterEndMagic o).append rest := by
  unfold afterEndMagic at hw ⊢
  by_cases hcheck : o.checkFinishesAfterEndMagic = true
  · rw [if_pos hcheck] at hw
    rw [if_pos hcheck, if_pos hcheck]
    by_cases hpos : s.bytes.length > 0
    · have hpos' : (s.append rest).bytes.length > 0 := by
        simp only [append, List.length_append]
        omega
      rw [if_pos hpos, if_pos hpos']
      rfl
    · rw [if_neg hpos] at hw
      exact hw.elim
  · rw [if_neg hcheck, if_neg hcheck]
    rfl

/-- **A turn that has all its bytes** is the same with more input behind. -/
theorem turn_append (hw : (s.turn D o).Whole) :
    (s.append rest).turn D o = (s.turn D o).append rest := by
  obtain ⟨phase, bytes, hasher⟩ := s
  cases phase with
  | startMagic => exact startMagic_append rest hw
  | fileRecord => exact fileRecord_append rest hw
  | chunkHeader len => exact chunkHeader_append rest hw
  | footer len h => exact footer_append rest hw
  | dataEnd len calculated => exact dataEnd_append rest hw
  | validatingPlain remaining c => exact validatingPlain_append rest hw
  | validatingPacked out c => exact validatingPacked_append rest
  | plainChunk remaining c => exact plainChunk_append rest hw
  | packedChunk out base validated c => exact packedChunk_append rest
  | paddingAfterChunk c => exact paddingAfterChunk_append rest hw
  | endMagic => exact endMagic_append rest hw
  | afterEndMagic => exact afterEndMagic_append rest hw

end Spec

/-- **What is yielded from the front of the input** does not depend on what follows. -/
theorem Yields.append {Δ : Decoding D o.recordLengthLimit} {s s' : Spec}
    {evs : List (UInt8 × Bytes)} (h : Yields Δ s evs s') (rest : Bytes) :
    Yields Δ (s.append rest) evs (s'.append rest) := by
  induction h with
  | refl s => exact .refl _
  | @again s t _ _ ht _ ih =>
    have hturn := Spec.turn_append (D := D) (o := o) (s := s) rest (by rw [ht]; trivial)
    rw [ht] at hturn
    exact .again hturn ih
  | @record s t _ opcode data _ ht _ ih =>
    have hturn := Spec.turn_append (D := D) (o := o) (s := s) rest (by rw [ht]; trivial)
    rw [ht] at hturn
    exact .record hturn ih
  | @packed s _ name size c n k out _ ht hsize hn hunp _ ih =>
    have hturn := Spec.turn_append (D := D) (o := o) (s := s) rest (by rw [ht]; exact hsize)
    rw [ht] at hturn
    exact .packed hturn hsize hn hunp ih

end Mcap

import Mcap.ReaderRuns

/-! # What the reader asks for

A read request is for at least one byte (`request_pos`).  So a driver that holds the whole
input, and answers a request with as much of it as is asked for, reports zero bytes only at
the end.
-/
namespace Mcap

variable {δ : Type} {D : Decompressor δ}

/-- The turn does not end with a request for nothing. -/
def Turn.Asks (T : Turn δ) : Prop := ∀ r n, T = .ret r (some (.ok (.readRequest n))) → 0 < n

namespace LinearReader
variable {r : LinearReader δ}

theorem asks_ret {r : LinearReader δ} {ev : NextEvent}
    (h : ∀ n, ev ≠ some (.ok (.readRequest n))) : (Turn.ret r ev).Asks := by
  rintro r' n heq
  cases heq
  exact absurd rfl (h n)

theorem asks_fail (e : McapError) : (r.fail e).Asks := asks_ret fun _ h => by cases h

theorem asks_load {n : Nat} {k : Bytes → Turn δ} (h : ∀ b, (k b).Asks) : (r.load n k).Asks := by
  unfold load
  split
  · rintro r' m heq
    cases heq
    omega
  · exact h _

theorem asks_consume {n : Nat} {k : Bytes → LinearReader δ → Turn δ} (h : ∀ b r, (k b r).Asks) :
    (r.consume n k).Asks := by
  unfold consume
  split
  · rintro r' m heq
    cases heq
    omega
  · split
    · rintro r' m heq
      cases heq
    · exact h _ _

theorem decompressLoop_need {fuel n : Nat} {s : Inflate δ}
    (h : (decompressLoop D fuel s).1 = .need n) : 0 < n := by
  induction fuel generalizing s with
  | zero => cases h
  | succ fuel ih =>
    unfold decompressLoop at h
    simp only at h
    split at h
    · cases h
      omega
    split at h
    · cases h
    split at h
    · cases h
    split at h
    · cases h
    · split at h
      · split at h
        · cases h
        · exact ih h
      · cases h

theorem asks_decompress {fuel n : Nat} {st : ChunkState δ} {d : δ}
    {k : LinearReader δ → ChunkState δ → δ → Turn δ} (h : ∀ r st d, (k r st d).Asks) :
    (r.decompress D fuel st d n k).Asks := by
  unfold decompress
  rcases hi : decompressInner D fuel n (r.inflate st d) with ⟨res, s⟩
  cases res with
  | done =>
    simp only
    split
    · rintro r' m heq
      cases heq
    · exact h _ _ _
  | need m =>
    rintro r' m' heq
    cases heq
    unfold decompressInner at hi
    split at hi
    · cases hi
    split at hi
    · cases hi
    · exact decompressLoop_need (congrArg Prod.fst hi)
  | err e => exact asks_ret fun _ h => by cases h
  | panic | spin =>
    rintro r' m heq
    cases heq

theorem asks_again (r : LinearReader δ) : (Turn.again r).Asks := fun _ _ h => by cases h

theorem asks_panic : (Turn.panic : Turn δ).Asks := fun _ _ h => by cases h

theorem asks_record (r : LinearReader δ) (opcode : UInt8) (data : Bytes) :
    (r.leave (some (.ok (.record opcode data)))).Asks := asks_ret fun _ h => by cases h

theorem asks_fileRecord : r.fileRecord.Asks := by
  unfold fileRecord
  refine asks_load fun buf => ?_
  rcases opcodeAndLen buf with ⟨opcode, len⟩
  simp only
  split
  · split
    · exact asks_panic
    · exact asks_again _
  split
  · split
    · exact asks_panic
    · exact asks_again _
  split
  · split
    · exact asks_panic
    · exact asks_again _
  split
  · exact asks_fail _
  split
  · exact asks_panic
  · exact asks_consume fun _ _ => asks_record _ _ _

theorem asks_dataEnd (len : Nat) (calculated : Option UInt32) : (r.dataEnd len calculated).Asks := by
  have hyield : ∀ n, (r.dataEndRecord n).Asks := by
    intro n
    unfold dataEndRecord
    simp only
    split
    · exact asks_panic
    · exact asks_record _ _ _
  unfold dataEnd
  split
  · exact asks_fail _
  · refine asks_load fun buf => ?_
    split
    · exact asks_fail _
    · simp only
      split
      · split
        · exact asks_fail _
        · exact hyield _
      · exact hyield _

theorem asks_footer (len : Nat) (hasher : Option Hasher) : (r.footer len hasher).Asks := by
  unfold footer
  split
  · exact asks_fail _
  · refine asks_consume fun data r => ?_
    split
    · exact asks_fail _
    · simp only
      split
      · exact asks_record _ _ _
      split
      · exact asks_panic
      split
      · exact asks_fail _
      · exact asks_record _ _ _

theorem asks_chunkHeader (len : Nat) : (r.chunkHeader D len).Asks := by
  unfold chunkHeader
  refine asks_load fun buf => asks_consume fun headerBuf r => ?_
  split
  · exact asks_fail _
  split
  · exact asks_fail _
  · simp only
    split
    · exact asks_fail _
    split
    · exact asks_fail _
    split
    · exact asks_fail _
    · exact asks_again _

theorem asks_validatingChunkCrc (fuel : Nat) : (r.validatingChunkCrc D fuel).Asks := by
  unfold validatingChunkCrc
  split
  · exact asks_panic
  split
  · split
    · exact asks_fail _
    · refine asks_load fun records => ?_
      simp only
      split
      · exact asks_fail _
      · exact asks_again _
  · split
    · exact asks_fail _
    split
    · simp only
      split
      · exact asks_fail _
      · exact asks_again _
    · exact asks_decompress fun _ _ _ => asks_again _

theorem asks_plainChunkRecord (st : ChunkState δ) : (r.plainChunkRecord st).Asks := by
  unfold plainChunkRecord
  split
  · exact asks_again _
  · refine asks_load fun buf => ?_
    rcases opcodeAndLen buf with ⟨opcode, len⟩
    simp only
    split
    · exact asks_fail _
    split
    · exact asks_panic
    · refine asks_consume fun data r => ?_
      split
      · exact asks_panic
      · exact asks_record _ _ _

theorem asks_yieldPacked (opcode : UInt8) (len : Nat) : (r.yieldPacked opcode len).Asks := by
  unfold yieldPacked
  split
  · exact asks_panic
  split
  · exact asks_panic
  · exact asks_record _ _ _

theorem asks_packedChunkRecord (fuel : Nat) (st : ChunkState δ) (d : δ) :
    (r.packedChunkRecord D fuel st d).Asks := by
  unfold packedChunkRecord
  simp only
  split
  · split
    · exact asks_fail _
    split
    · exact asks_panic
    · exact asks_again _
  · refine asks_decompress fun r st d => ?_
    rcases opcodeAndLen _ with ⟨opcode, len⟩
    simp only
    split
    · exact asks_fail _
    split
    · exact asks_panic
    · exact asks_decompress fun _ _ _ => asks_yieldPacked _ _

theorem asks_checkChunkCrc (saved : UInt32) (hasher : Option Hasher) :
    (r.checkChunkCrc saved hasher).Asks := by
  unfold checkChunkCrc
  split
  · exact asks_again _
  · simp only
    split
    · exact asks_fail _
    · exact asks_again _

theorem asks_paddingAfterChunk : (r.paddingAfterChunk D).Asks := by
  unfold paddingAfterChunk
  split
  · exact asks_panic
  · refine asks_consume fun _ r => ?_
    split
    · simp only
      split
      · exact asks_fail _
      · exact asks_checkChunkCrc _ _
    · exact asks_checkChunkCrc _ _

/-- **No turn asks for nothing.** -/
theorem turn_asks (fuel : Nat) : (r.turn D fuel).Asks := by
  unfold turn
  split
  · unfold startMagic
    split
    · exact asks_again _
    · refine asks_consume fun data r => ?_
      split
      · exact asks_fail _
      · exact asks_again _
  · exact asks_fileRecord
  · exact asks_dataEnd _ _
  · exact asks_footer _ _
  · exact asks_chunkHeader _
  · exact asks_validatingChunkCrc fuel
  · unfold chunkRecord
    split
    · exact asks_panic
    split
    · exact asks_plainChunkRecord _
    · exact asks_packedChunkRecord fuel _ _
  · exact asks_paddingAfterChunk
  · unfold endMagic
    split
    · exact asks_ret fun _ h => by cases h
    · refine asks_consume fun data r => ?_
      split
      · exact asks_again _
      · exact asks_fail _
  · unfold afterEndMagic
    split
    · split
      · exact asks_fail _
      split
      · exact asks_ret fun _ h => by cases h
      · rintro r' n heq
        cases heq
        exact Nat.one_pos
    · exact asks_ret fun _ h => by cases h

theorem loop_request {fuel n : Nat} {r' : LinearReader δ}
    (h : r.loop D fuel = .ret r' (some (.ok (.readRequest n)))) : 0 < n := by
  induction fuel generalizing r with
  | zero => cases h
  | succ fuel ih =>
    rw [loop] at h
    have hasks := turn_asks (D := D) (r := r) (fuel + 1)
    cases ht : r.turn D (fuel + 1) with
    | again r₁ =>
      rw [ht] at h
      exact ih h
    | ret r₁ ev =>
      rw [ht] at h hasks
      cases h
      exact hasks _ _ rfl
    | panic | spin =>
      rw [ht] at h
      cases h

/-- **A request is for at least one byte.** -/
theorem request_pos {n : Nat} {r' : LinearReader δ}
    (h : Returns D r (.ret r' (some (.ok (.readRequest n))))) : 0 < n := by
  obtain ⟨N, hN⟩ := h
  have hev := hN N (Nat.le_refl N)
  unfold nextEvent at hev
  split at hev
  · split at hev <;> cases hev
  · exact loop_request hev

theorem exists_feed {n : Nat} {piece : Bytes} (h : piece.length ≤ n) :
    ∃ r', r.feed n piece = some r' := by
  obtain ⟨b, hb, -⟩ := r.fileData.feed_shows h
  refine ⟨{ r with fileData := b, atEof := r.atEof || piece.length = 0 }, ?_⟩
  unfold feed
  rw [hb]
  exact if_pos h

end LinearReader
end Mcap

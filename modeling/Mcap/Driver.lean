import Mcap.ReaderRuns

/-! # A driver that can be run

`drive` calls `next_event` and answers each request with as many bytes as `pick`
says, one at least.  Its result is a `Run` (`run_of_drive`), so what a driver
sees on a concrete byte string can be computed.

The fuel of the loops is harmless: a call that has ended with some fuel ends the
same way with more (`nextEvent_mono`).
-/
namespace Mcap

variable {δ : Type} (D : Decompressor δ) {fuel : Nat}

/-! ## More fuel changes nothing -/

theorem decompressLoop_mono {fuel' : Nat} (hf : fuel ≤ fuel') {s : Inflate δ}
    (h : (decompressLoop D fuel s).1 ≠ .spin) :
    decompressLoop D fuel' s = decompressLoop D fuel s := by
  induction fuel generalizing fuel' s with
  | zero => exact absurd rfl h
  | succ fuel ih =>
    obtain ⟨fuel', rfl⟩ : ∃ m, fuel' = m + 1 := ⟨fuel' - 1, by omega⟩
    have hle : fuel ≤ fuel' := by omega
    unfold decompressLoop at h ⊢
    simp only at h ⊢
    by_cases hneed : D.nextReadSize s.decompressor > s.srcBuf.len
    · simp only [if_pos hneed]
    simp only [if_neg hneed] at h ⊢
    by_cases hfull : s.destBuf.unwritten.length = 0
    · simp only [if_pos hfull]
    simp only [if_neg hfull] at h ⊢
    by_cases hzero : s.uncompressedRemaining = 0
    · simp only [if_pos hzero]
    simp only [if_neg hzero] at h ⊢
    rcases hd : D.decompress s.decompressor
      (s.srcBuf.unread.take (min s.srcBuf.len s.compressedRemaining)) s.destBuf.unwritten.length
      with ⟨d, e | res⟩
    · rfl
    · simp only [hd] at h ⊢
      rcases hr : s.srcBuf.markRead res.consumed with _ | src
      · rfl
      rcases hw : (s.destBuf.fill res.wrote).markWritten res.wrote.length with _ | dest
      · rfl
      simp only [hr, hw] at h ⊢
      by_cases hlt : res.wrote.length > s.uncompressedRemaining
      · simp only [if_pos hlt]
      · simp only [if_neg hlt] at h ⊢
        exact ih hle h

theorem decompressInner_mono {fuel' n : Nat} (hf : fuel ≤ fuel') {s : Inflate δ}
    (h : (decompressInner D fuel n s).1 ≠ .spin) :
    decompressInner D fuel' n s = decompressInner D fuel n s := by
  unfold decompressInner at h ⊢
  by_cases hn : n - s.destBuf.len = 0
  · rw [if_pos hn, if_pos hn]
  rw [if_neg hn] at h ⊢
  rw [if_neg hn]
  rcases hr : s.destBuf.reserveExact (n - s.destBuf.len) with _ | dest
  · rfl
  · simp only [hr] at h ⊢
    exact decompressLoop_mono D hf h

namespace LinearReader

/-- A turn that has not ended yet may end in any way. -/
def Below (T T' : Turn δ) : Prop := T = .spin ∨ T' = T

variable {D} {fuel fuel' : Nat}

theorem Below.refl (T : Turn δ) : Below T T := .inr rfl

theorem decompress_below (hf : fuel ≤ fuel') (r : LinearReader δ) (st : ChunkState δ) (d : δ)
    (n : Nat) {k k' : LinearReader δ → ChunkState δ → δ → Turn δ}
    (hk : ∀ r st d, Below (k r st d) (k' r st d)) :
    Below (r.decompress D fuel st d n k) (r.decompress D fuel' st d n k') := by
  unfold decompress
  by_cases hs : (decompressInner D fuel n (r.inflate st d)).1 = .spin
  · left
    simp only [hs]
  · rw [decompressInner_mono D hf hs]
    rcases decompressInner D fuel n _ with ⟨res, s⟩
    cases res with
    | done =>
      simp only
      split
      · exact .refl _
      · exact hk _ _ _
    | need n => exact .refl _
    | err e => exact .refl _
    | panic => exact .refl _
    | spin => exact .refl _

theorem turn_below (hf : fuel ≤ fuel') (r : LinearReader δ) :
    Below (r.turn D fuel) (r.turn D fuel') := by
  unfold turn
  cases r.currentlyReading with
  | validatingChunkCrc =>
    unfold validatingChunkCrc
    simp only
    split
    · exact .refl _
    split
    · exact .refl _
    split
    · exact .refl _
    split
    · exact .refl _
    · exact decompress_below hf _ _ _ _ fun _ _ _ => .refl _
  | chunkRecord =>
    unfold chunkRecord
    simp only
    split
    · exact .refl _
    split
    · exact .refl _
    unfold packedChunkRecord
    simp only
    split
    · exact .refl _
    unfold nextPacked
    refine decompress_below hf _ _ _ _ fun r st d => ?_
    simp only
    split
    · exact .refl _
    split
    · exact .refl _
    · exact decompress_below hf _ _ _ _ fun _ _ _ => .refl _
  | _ => exact .refl _

theorem loop_mono (hf : fuel ≤ fuel') {r : LinearReader δ}
    (h : r.loop D fuel ≠ .spin) : r.loop D fuel' = r.loop D fuel := by
  induction fuel generalizing fuel' r with
  | zero => exact absurd rfl h
  | succ fuel ih =>
    obtain ⟨fuel', rfl⟩ : ∃ m, fuel' = m + 1 := ⟨fuel' - 1, by omega⟩
    unfold loop at h ⊢
    rcases turn_below (D := D) hf r with hs | hs
    · rw [hs] at h
      exact absurd rfl h
    · rw [hs]
      cases hT : r.turn D (fuel + 1) with
      | again r' =>
        simp only [hT] at h ⊢
        exact ih (by omega) h
      | ret r' ev => rfl
      | panic => rfl
      | spin => rfl

/-- **A call that has ended ends the same way with more fuel.** -/
theorem nextEvent_mono (hf : fuel ≤ fuel') {r : LinearReader δ}
    (h : r.nextEvent D fuel ≠ .spin) : r.nextEvent D fuel' = r.nextEvent D fuel := by
  unfold nextEvent at h ⊢
  split
  · rfl
  · rename_i hr
    rw [if_neg hr] at h
    exact loop_mono hf h

end LinearReader

theorem returns_of_nextEvent {r : LinearReader δ} {out : Outcome δ} (h : r.nextEvent D fuel = out)
    (hne : out ≠ .spin) : Returns D r out := by
  refine ⟨fuel, fun fuel' hf => ?_⟩
  rw [LinearReader.nextEvent_mono hf (by rw [h]; exact hne), h]

/-! ## Driving a reader -/

/-- Read `rest` to its end, answering a request for `n` bytes with `pick n rest`
bytes, and one at least. -/
def drive (pick : Nat → Bytes → Nat) :
    Nat → LinearReader δ → Bytes → Option (List (UInt8 × Bytes) × Final)
  | 0, _, _ => none
  | fuel + 1, r, rest =>
      match r.nextEvent D (fuel + 1) with
      | .ret r' (some (.ok (.record opcode data))) =>
          (drive pick fuel r' rest).map fun (evs, fin) => ((opcode, data) :: evs, fin)
      | .ret r' (some (.ok (.readRequest n))) =>
          let k := max 1 (pick n rest)
          match r'.feed k (rest.take k) with
          | none => none
          | some r'' => drive pick fuel r'' (rest.drop k)
      | .ret _ (some (.error e)) => some ([], .failed e)
      | .ret _ none => some ([], .finished)
      | .panic => some ([], .panicked)
      | .spin => none

/-- **What `drive` computes is a run.** -/
theorem run_of_drive {pick : Nat → Bytes → Nat} {r : LinearReader δ} {rest : Bytes}
    {evs : List (UInt8 × Bytes)} {fin : Final} (h : drive D pick fuel r rest = some (evs, fin)) :
    Run D r rest evs fin := by
  induction fuel generalizing r rest evs fin with
  | zero => cases h
  | succ fuel ih =>
    unfold drive at h
    rcases hn : r.nextEvent D (fuel + 1) with ⟨r', _ | (e | (n | ⟨opcode, data⟩))⟩ | _ | _ <;>
      simp only [hn] at h
    · cases h
      exact .done (returns_of_nextEvent D hn (by simp))
    · cases h
      exact .fail (returns_of_nextEvent D hn (by simp))
    · rcases hf : r'.feed (max 1 (pick n rest)) (rest.take (max 1 (pick n rest))) with _ | r''
      · simp only [hf] at h
        cases h
      · simp only [hf] at h
        have hrun := Run.request (returns_of_nextEvent D hn (by simp)) (fun hnil => ?_) hf (ih h)
        · rwa [List.take_append_drop] at hrun
        · have hlen := congrArg List.length hnil
          rw [List.length_take, List.length_nil] at hlen
          exact List.length_eq_zero_iff.mp (by rw [List.length_drop]; omega)
    · rcases hd : drive D pick fuel r' rest with _ | ⟨evs', fin'⟩
      · simp only [hd] at h
        cases h
      · simp only [hd, Option.map_some] at h
        cases h
        exact .record (returns_of_nextEvent D hn (by simp)) (ih hd)
    · cases h
      exact .panic (returns_of_nextEvent D hn (by simp))
    · cases h

end Mcap

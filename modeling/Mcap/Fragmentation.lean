import Mcap.Driver
import Mcap.StoredLz4

/-! # Independence of how the input is cut

A run of the reader that has everything ends: each step takes bytes off the
input, or moves to a later state of the same record, or takes a record off a
compressed chunk (`Spec.turn_smaller`).  So if every compressed chunk that is
opened on the way is intact, there is one run (`parses_of_intact`), and by the
run lemma it is what every driver sees.

Without that condition drivers do not agree.  `decompress_inner` asks for more
input before it looks whether it has written enough, so at the end of a truncated
chunk a driver that has nothing left to feed loses a record that is complete in
the decompressed buffer, while a driver that has a byte left gets it.
-/
namespace Mcap
open LinearReader (opcodeAndLen MIN_CHUNK_HEADER_SIZE)

variable {δ : Type} {D : Decompressor δ} {o : LinearReaderOptions}

/-! ## Every step makes the input smaller -/

/-- States that follow each other without reading, in decreasing order. -/
def Phase.rank : Phase → Nat
  | .startMagic => 7
  | .chunkHeader _ => 6
  | .validatingPlain .. | .validatingPacked .. => 5
  | .plainChunk .. | .packedChunk .. => 4
  | .paddingAfterChunk _ => 3
  | .dataEnd .. => 3
  | .fileRecord => 2
  | .footer .. => 2
  | .endMagic => 1
  | .afterEndMagic => 0

/-- The bytes of a compressed chunk that are left to read. -/
def Phase.pending : Phase → Nat
  | .packedChunk out .. => out.length
  | _ => 0

namespace Spec

/-- Fewer bytes of input, or a later state, or fewer bytes of a compressed chunk. -/
def Smaller (s' s : Spec) : Prop :=
  Prod.Lex (· < ·) (Prod.Lex (· < ·) (· < ·))
    (s'.bytes.length, s'.phase.rank, s'.phase.pending)
    (s.bytes.length, s.phase.rank, s.phase.pending)

theorem smaller_wf : WellFounded Smaller :=
  InvImage.wf (fun s : Spec => (s.bytes.length, s.phase.rank, s.phase.pending))
    (WellFounded.prod_lex Nat.lt_wfRel.wf (WellFounded.prod_lex Nat.lt_wfRel.wf Nat.lt_wfRel.wf))

variable {s s' : Spec} {c : OpenChunk}

theorem smaller_of_bytes (h : s'.bytes.length < s.bytes.length) : Smaller s' s :=
  Prod.Lex.left _ _ h

theorem smaller_of_rank (hb : s'.bytes.length ≤ s.bytes.length)
    (hr : s'.phase.rank < s.phase.rank) : Smaller s' s := by
  rcases Nat.lt_or_eq_of_le hb with hlt | heq
  · exact smaller_of_bytes hlt
  · unfold Smaller
    rw [heq]
    exact Prod.Lex.right _ (Prod.Lex.left _ _ hr)

theorem smaller_of_pending (hb : s'.bytes.length = s.bytes.length)
    (hr : s'.phase.rank = s.phase.rank) (hp : s'.phase.pending < s.phase.pending) :
    Smaller s' s := by
  unfold Smaller
  rw [hb, hr]
  exact Prod.Lex.right _ (Prod.Lex.right _ hp)

/-- The turn `t` of `s` goes on with something smaller. -/
def Shrinks (s : Spec) : SpecTurn → Prop
  | .again s' => Smaller s' s
  | .record _ _ s' => Smaller s' s
  | .packed _ _ _ _ k => ∀ out, Smaller (k out) s
  | _ => True

theorem shrinks_need {n : Nat} {t : SpecTurn} (h : n ≤ s.bytes.length → Shrinks s t) :
    Shrinks s (s.need n t) := by
  unfold need
  split
  · trivial
  · exact h (by omega)

theorem skip_length_le (s : Spec) (n : Nat) : (s.skip n).bytes.length ≤ s.bytes.length := by
  simp [skip]

theorem skip_length_lt {n : Nat} (h0 : 0 < n) (hn : n ≤ s.bytes.length) :
    (s.skip n).bytes.length < s.bytes.length := by
  simp only [skip, List.length_drop]
  omega

theorem shrinks_startMagic (hp : s.phase = .startMagic) : Shrinks s (s.startMagic o) := by
  unfold startMagic
  split
  · exact smaller_of_rank (Nat.le_refl _) (by simp [hp, Phase.rank])
  · refine shrinks_need fun _ => ?_
    split
    · trivial
    · exact smaller_of_rank (skip_length_le _ _) (by simp [hp, Phase.rank])

theorem shrinks_fileRecord : Shrinks s (s.fileRecord o) := by
  unfold fileRecord
  refine shrinks_need fun hlen => ?_
  have hdrop : (s.bytes.drop OPCODE_LEN_SIZE).length < s.bytes.length := by
    rw [List.length_drop]
    simp only [OPCODE_LEN_SIZE] at *
    omega
  rcases opcodeAndLen (s.bytes.take OPCODE_LEN_SIZE) with ⟨opcode, len⟩
  simp only
  split
  · exact smaller_of_bytes hdrop
  split
  · exact smaller_of_bytes hdrop
  split
  · exact smaller_of_bytes hdrop
  split
  · trivial
  split
  · trivial
  · exact shrinks_need fun hn => smaller_of_bytes (skip_length_lt (by simp [OPCODE_LEN_SIZE]) hn)

theorem shrinks_dataEnd {len : Nat} {calculated : Option UInt32}
    (hp : s.phase = .dataEnd len calculated) : Shrinks s (s.dataEnd o len calculated) := by
  unfold dataEnd
  split
  · trivial
  · rename_i n _
    refine shrinks_need fun _ => ?_
    rcases readLeFrom DataEnd.read _ with e | ⟨rec, cur⟩
    · trivial
    have hyield : ∀ {h : Option Hasher}, Smaller ⟨.fileRecord, s.bytes.drop n, h⟩ s := fun {h} =>
      smaller_of_rank (by simp) (by simp [hp, Phase.rank])
    rcases calculated with _ | calculated
    · exact hyield
    · simp only
      split
      · trivial
      · exact hyield

theorem shrinks_footer {len : Nat} {hasher : Option Hasher} (hp : s.phase = .footer len hasher) :
    Shrinks s (s.footer o len hasher) := by
  unfold footer
  split
  · trivial
  · rename_i n _
    refine shrinks_need fun _ => ?_
    rcases readLeFrom Footer.read _ with e | ⟨rec, cur⟩
    · trivial
    have hyield : Smaller { s.skip n with phase := .endMagic } s :=
      smaller_of_rank (skip_length_le _ _) (by simp [hp, Phase.rank])
    rcases hasher with _ | hasher
    · exact hyield
    · simp only
      split
      · trivial
      split
      · trivial
      · exact hyield

theorem shrinks_chunkHeader {len : Nat} (hp : s.phase = .chunkHeader len) :
    Shrinks s (s.chunkHeader D o len) := by
  unfold chunkHeader
  refine shrinks_need fun _ => shrinks_need fun _ => ?_
  rcases readLeFrom ChunkHeader.read _ with e | ⟨header, cur⟩
  · trivial
  simp only
  split
  · trivial
  split
  · trivial
  split
  · trivial
  split
  · trivial
  · unfold enterChunk
    by_cases hname : header.compression = ""
    · rw [if_pos hname]
      refine smaller_of_rank (skip_length_le _ _) ?_
      simp only [hp]
      split <;> simp [Phase.rank]
    · rw [if_neg hname]
      intro out
      refine smaller_of_rank ((skip_length_le _ _).trans (skip_length_le _ _)) ?_
      simp only [hp]
      split <;> simp [Phase.rank]

theorem shrinks_validatingPlain {remaining : Nat} (hp : s.phase = .validatingPlain remaining c) :
    Shrinks s (s.validatingPlain o remaining c) := by
  unfold validatingPlain
  split
  · trivial
  · refine shrinks_need fun _ => ?_
    simp only
    split
    · trivial
    · exact smaller_of_rank (Nat.le_refl _) (by simp [hp, Phase.rank])

theorem shrinks_validatingPacked {out : Bytes}
    (hp : s.phase = .validatingPacked out c) : Shrinks s (s.validatingPacked o out c) := by
  unfold validatingPacked
  split
  · trivial
  split
  · trivial
  simp only
  split
  · trivial
  · exact smaller_of_rank (Nat.le_refl _) (by simp [hp, Phase.rank])

theorem shrinks_plainChunk {remaining : Nat}
    (hp : s.phase = .plainChunk remaining c) : Shrinks s (s.plainChunk o remaining c) := by
  unfold plainChunk
  split
  · exact smaller_of_rank (Nat.le_refl _) (by simp [hp, Phase.rank])
  refine shrinks_need fun _ => ?_
  rcases opcodeAndLen (s.bytes.take OPCODE_LEN_SIZE) with ⟨opcode, len⟩
  simp only
  split
  · trivial
  split
  · trivial
  refine shrinks_need fun hn => ?_
  split
  · trivial
  · exact smaller_of_bytes (skip_length_lt (by simp [OPCODE_LEN_SIZE]) hn)

theorem shrinks_packedChunk {out : Bytes} {base : Nat} {validated : Bool}
    (hp : s.phase = .packedChunk out base validated c) :
    Shrinks s (s.packedChunk o out base validated c) := by
  unfold packedChunk
  split
  · exact smaller_of_rank (Nat.le_refl _) (by simp [hp, Phase.rank])
  rename_i hne
  split
  · trivial
  split
  · trivial
  rcases opcodeAndLen (out.take OPCODE_LEN_SIZE) with ⟨opcode, len⟩
  simp only
  split
  · trivial
  split
  · trivial
  split
  · trivial
  split
  · trivial
  · refine smaller_of_pending rfl (by rw [hp]; rfl) ?_
    have hpos := List.length_pos_iff.mpr hne
    rw [hp]
    simp only [Phase.pending, List.length_drop, OPCODE_LEN_SIZE]
    omega

theorem shrinks_paddingAfterChunk (hp : s.phase = .paddingAfterChunk c) :
    Shrinks s (s.paddingAfterChunk c) := by
  unfold paddingAfterChunk
  refine shrinks_need fun _ => ?_
  have hnext : Smaller { s.skip c.padding with phase := .fileRecord } s :=
    smaller_of_rank (skip_length_le _ _) (by simp [hp, Phase.rank])
  rcases c.hasher with _ | hasher
  · exact hnext
  · simp only
    split
    · trivial
    · exact hnext

theorem shrinks_endMagic (hp : s.phase = .endMagic) : Shrinks s (s.endMagic o) := by
  unfold endMagic
  split
  · trivial
  · refine shrinks_need fun _ => ?_
    split
    · exact smaller_of_rank (skip_length_le _ _) (by simp [hp, Phase.rank])
    · trivial

/-- **Every step that goes on makes the input smaller.** -/
theorem turn_smaller (s : Spec) : Shrinks s (s.turn D o) := by
  unfold turn
  split <;> rename_i hp
  · exact shrinks_startMagic hp
  · exact shrinks_fileRecord
  · exact shrinks_dataEnd hp
  · exact shrinks_footer hp
  · exact shrinks_chunkHeader hp
  · exact shrinks_validatingPlain hp
  · exact shrinks_validatingPacked hp
  · exact shrinks_plainChunk hp
  · exact shrinks_packedChunk hp
  · exact shrinks_paddingAfterChunk hp
  · exact shrinks_endMagic hp
  · unfold afterEndMagic
    split
    · split <;> trivial
    · trivial

end Spec

/-! ## Intact chunks -/

section
variable (Δ : Decoding D o.recordLengthLimit)

/-- The states a run passes through, opening intact chunks only. -/
inductive Reaches : Spec → Spec → Prop
  | refl {s} : Reaches s s
  | again {s s' s''} : s.turn D o = .again s' → Reaches s' s'' → Reaches s s''
  | record {s s' s'' opcode data} : s.turn D o = .record opcode data s' → Reaches s' s'' →
      Reaches s s''
  | packed {s s'' name size c n k out} : s.turn D o = .packed name size c n k →
      c.length = size → out.length = n → Unpacks Δ name c out → Reaches (k out) s'' → Reaches s s''

/-- **Every compressed chunk the reader opens is intact**: its compressed bytes are
all there, and they unpack to as many bytes as its header says. -/
def Intact (s : Spec) : Prop :=
  ∀ ⦃s' name size c n k⦄, Reaches Δ s s' → s'.turn D o = .packed name size c n k →
    c.length = size ∧ ∃ out, out.length = n ∧ Unpacks Δ name c out

variable {Δ} {s : Spec}

theorem parses_of_intact : Intact Δ s → ∃ evs fin, Parses D Δ s evs fin := by
  induction s using Spec.smaller_wf.induction with
  | _ s ih =>
    intro hi
    have hsm := Spec.turn_smaller (D := D) (o := o) s
    cases ht : s.turn D o with
    | again s' =>
      rw [ht] at hsm
      obtain ⟨evs, fin, hp⟩ := ih s' hsm fun _ _ _ _ _ _ hr => hi (.again ht hr)
      exact ⟨evs, fin, .again ht hp⟩
    | record opcode data s' =>
      rw [ht] at hsm
      obtain ⟨evs, fin, hp⟩ := ih s' hsm fun _ _ _ _ _ _ hr => hi (.record ht hr)
      exact ⟨_, fin, .record ht hp⟩
    | packed name size c n k =>
      rw [ht] at hsm
      obtain ⟨hsize, out, hlen, hunp⟩ := hi .refl ht
      obtain ⟨evs, fin, hp⟩ := ih (k out) (hsm out) fun _ _ _ _ _ _ hr => hi (.packed ht hsize hlen hunp hr)
      exact ⟨evs, fin, .packed ht hsize hlen hunp hp⟩
    | fail e => exact ⟨_, _, .fail ht⟩
    | done => exact ⟨_, _, .done ht⟩
    | panic => exact ⟨_, _, .panic ht⟩
    | eof => exact ⟨_, _, .eof ht⟩

theorem observes_of_intact {bytes : Bytes} (hi : Intact Δ (Spec.init o bytes)) :
    ∃ evs fin, Observes D (LinearReader.newWithOptions o) bytes evs fin := by
  obtain ⟨evs, fin, hp⟩ := parses_of_intact hi
  exact ⟨evs, fin, observes_of_parses hp (sim_init Δ bytes)⟩

/-- A run opens intact chunks only, and if these unpack in one way, it is the only
run there is. -/
theorem intact_of_parses
    (huniq : ∀ {name c out out'}, Unpacks Δ name c out → Unpacks Δ name c out' → out = out')
    {evs : List (UInt8 × Bytes)} {fin : Final} (h : Parses D Δ s evs fin) :
    Intact Δ s := by
  -- each step of `Reaches` is the step of the run, because the turn is a function
  induction h with
  | again ht _ ih =>
    intro s' name size c n k hr ht'
    cases hr with
    | refl => rw [ht] at ht'; cases ht'
    | again h hr => rw [ht] at h; cases h; exact ih hr ht'
    | record h _ | packed h _ _ _ _ => rw [ht] at h; cases h
  | record ht _ ih =>
    intro s' name size c n k hr ht'
    cases hr with
    | refl => rw [ht] at ht'; cases ht'
    | again h _ => rw [ht] at h; cases h
    | record h hr => rw [ht] at h; cases h; exact ih hr ht'
    | packed h _ _ _ _ => rw [ht] at h; cases h
  | packed ht hsize hlen hunp _ ih =>
    intro s' name size c n k hr ht'
    cases hr with
    | refl => rw [ht] at ht'; cases ht'; exact ⟨hsize, _, hlen, hunp⟩
    | again h _ | record h _ => rw [ht] at h; cases h
    | packed h _ _ hunp' hr =>
      rw [ht] at h
      cases h
      obtain rfl := huniq hunp hunp'
      exact ih hr ht'
  | fail ht | done ht | panic ht | eof ht =>
    intro s' name size c n k hr ht'
    cases hr with
    | refl => rw [ht] at ht'; cases ht'
    | again h _ | record h _ | packed h _ _ _ _ => rw [ht] at h; cases h

/-- Outside chunks, and not about to open one. -/
def Phase.top : Phase → Bool
  | .startMagic | .fileRecord | .footer .. | .dataEnd .. | .endMagic | .afterEndMagic => true
  | _ => false

/-- The turn stays outside chunks. -/
def StaysTop : SpecTurn → Prop
  | .again s' => s'.phase.top = true
  | .record _ _ s' => s'.phase.top = true
  | .packed .. => False
  | _ => True

theorem staysTop_need {n : Nat} {t : SpecTurn} (h : StaysTop t) :
    StaysTop (s.need n t) := by
  unfold Spec.need
  split
  · trivial
  · exact h

theorem staysTop_turn (ho : o.emitChunks = true) (hp : s.phase.top = true) :
    StaysTop (s.turn D o) := by
  unfold Spec.turn
  split <;> rename_i hph <;> rw [hph] at hp
  case h_1 =>
    unfold Spec.startMagic
    split
    · rfl
    · refine staysTop_need ?_
      split <;> trivial
  case h_2 =>
    unfold Spec.fileRecord
    refine staysTop_need ?_
    simp only [ho, Bool.not_true, Bool.false_eq_true, and_false, if_false]
    split
    · rfl
    split
    · rfl
    split
    · trivial
    split
    · trivial
    · refine staysTop_need ?_
      show s.phase.top = true
      rw [hph]
      rfl
  case h_3 =>
    unfold Spec.dataEnd
    split
    · trivial
    · refine staysTop_need ?_
      split
      · trivial
      simp only
      split
      · split <;> trivial
      · rfl
  case h_4 =>
    unfold Spec.footer
    split
    · trivial
    · refine staysTop_need ?_
      split
      · trivial
      simp only
      split
      · rfl
      split
      · trivial
      split <;> trivial
  case h_11 =>
    unfold Spec.endMagic
    split
    · trivial
    · refine staysTop_need ?_
      split <;> trivial
  case h_12 =>
    unfold Spec.afterEndMagic
    split
    · split <;> trivial
    · trivial
  all_goals cases hp

theorem Reaches.top (ho : o.emitChunks = true) {s' : Spec} (h : Reaches Δ s s') :
    s.phase.top = true → s'.phase.top = true := by
  induction h with
  | refl => exact id
  | again ht _ ih | record ht _ ih =>
    intro hp
    have hs := staysTop_turn (D := D) ho hp
    rw [ht] at hs
    exact ih hs
  | packed ht _ _ _ _ _ =>
    intro hp
    have hs := staysTop_turn (D := D) ho hp
    rw [ht] at hs
    exact hs.elim

theorem intact_of_emitChunks (ho : o.emitChunks = true) (bytes : Bytes) :
    Intact Δ (Spec.init o bytes) := by
  intro s' name size c n k hr ht
  have htop : (Spec.init o bytes).phase.top = true := by
    simp only [Spec.init]
    split <;> rfl
  have hs := staysTop_turn (D := D) ho (hr.top ho htop)
  rw [ht] at hs
  exact hs.elim

end

/-- Two records in a compressed chunk, each in a block of its own. -/
def storedChunk : Bytes :=
  ChunkHeader.bytes
    { messageStartTime := 0
      messageEndTime := 0
      uncompressedSize := 20
      uncompressedCrc := 0
      compression := "lz4"
      compressedSize := 39 } ++
    Stage.storedFrame [frame 0x80 [1], frame 0x81 [2]]

/-- A file with one compressed chunk. -/
def storedFile : Bytes :=
  MAGIC ++ frame op.CHUNK storedChunk ++ frame op.FOOTER (List.replicate 20 0) ++ MAGIC

theorem intact_storedFile :
    Intact (o := {}) storedDecoding (Spec.init {} storedFile) := by
  have hparse : (Spec.init {} storedFile).parse storedLz4 {} unpackStored 20 =
      some ([(0x80, [1]), (0x81, [2]), (op.FOOTER, List.replicate 20 0)], .finished) := by
    decide +kernel
  exact intact_of_parses unpacks_stored_unique (parses_of_parse storedLz4 unpacks_stored hparse)

end Mcap

import Mcap.Fragmentation

/-! # The framing grammar

With chunks handed out whole, and neither checksums nor limits, the reader does
nothing but frame records.  It accepts a byte string exactly if the string is the
magic, records, a footer, and the magic again (`Framed`), and then the records it
yields, written out again between the two magics, are the string.

Both directions are about the reader that has everything.  An accepting run
proves the grammar of what is left of the input, state by state
(`Rest.of_leads`); a string of the grammar has an accepting run, by induction on
its records.
-/
namespace Mcap
open LinearReader (opcodeAndLen)

/-- Options for which the reader only frames records. -/
def framingOptions : LinearReaderOptions where
  emitChunks := true
  checkFinishesAfterEndMagic := true

/-- `bytes` is the records `recs`, a footer with the body `body`, and the magic. -/
structure FramedTail (bytes : Bytes) (recs : List (UInt8 × Bytes)) (body : Bytes) : Prop where
  bytes : bytes = frames recs ++ frame op.FOOTER body ++ MAGIC
  noFooter : ∀ p ∈ recs, p.1 ≠ op.FOOTER
  dataEnd : ∀ p ∈ recs, p.1 = op.DATA_END → 4 ≤ p.2.length
  footer : 20 ≤ body.length

/-- **The framing grammar**: the magic, records, a footer, and the magic. -/
def Framed (bytes : Bytes) : Prop := ∃ tail recs body, bytes = MAGIC ++ tail ∧ FramedTail tail recs body

/-! ## The front of a record -/

/-- A decompressor is never asked for anything when chunks are handed out whole. -/
def noDecoding {δ : Type} (D : Decompressor δ) (limit : Option Nat) : Decoding D limit where
  Fresh _ _ := True
  Mid _ _ _ _ := False
  zstd := trivial
  lz4 _ := trivial
  hint h := h.elim
  call h := h.elim
  tail h := h.elim
  reset h := h.elim

theorem opcodeAndLen_frame {opcode : UInt8} {body rest : Bytes} (h : body.length ≤ USIZE_MAX) :
    opcodeAndLen ((frame opcode body ++ rest).take OPCODE_LEN_SIZE) = (opcode, body.length) := by
  have htake : (frame opcode body ++ rest).take OPCODE_LEN_SIZE = opcode :: le 8 body.length := by
    have hf : frame opcode body ++ rest = (opcode :: le 8 body.length) ++ (body ++ rest) := by
      simp [frame]
    rw [hf]
    exact List.take_left' (by simp [OPCODE_LEN_SIZE, length_le])
  have hlt : body.length < 256 ^ 8 := by
    simp only [USIZE_MAX] at h
    omega
  rw [htake, opcodeAndLen, List.headD_cons, List.drop_one, List.tail_cons, ofLe_le_of_lt hlt]

theorem frame_of_opcodeAndLen {bytes : Bytes} {opcode : UInt8} {len : Nat}
    (h9 : OPCODE_LEN_SIZE ≤ bytes.length)
    (hol : opcodeAndLen (bytes.take OPCODE_LEN_SIZE) = (opcode, len))
    (hlen : OPCODE_LEN_SIZE + len ≤ bytes.length) :
    bytes.take (OPCODE_LEN_SIZE + len) =
      frame opcode ((bytes.take (OPCODE_LEN_SIZE + len)).drop OPCODE_LEN_SIZE) := by
  obtain ⟨b, tail, rfl⟩ : ∃ b tail, bytes = b :: tail := by
    cases bytes with
    | nil => simp [OPCODE_LEN_SIZE] at h9
    | cons b tail => exact ⟨b, tail, rfl⟩
  simp only [OPCODE_LEN_SIZE, opcodeAndLen, List.length_cons, Prod.mk.injEq, List.take_succ_cons,
    List.headD_cons, List.drop_succ_cons, List.drop_zero, Nat.add_comm 1 8] at *
  obtain ⟨rfl, rfl⟩ := hol
  have h8 : (tail.take 8).length = 8 := by rw [List.length_take]; omega
  have hle : le 8 (ofLe (tail.take 8)) = tail.take 8 := by
    have := le_ofLe (tail.take 8)
    rwa [h8] at this
  have hbody : (((b :: tail).take (8 + 1 + ofLe (tail.take 8))).drop (8 + 1)) =
      (tail.drop 8).take (ofLe (tail.take 8)) := by
    rw [Nat.add_right_comm, List.take_succ_cons, List.drop_succ_cons, List.drop_take,
      Nat.add_sub_cancel_left]
  rw [hbody, frame, List.length_take, List.length_drop, Nat.min_eq_left (by omega), hle,
    Nat.add_right_comm, List.take_succ_cons, List.take_add]

/-! ## What is accepted is framed -/

/-- What an accepting run says about the rest of the input and the records still
to come. -/
def Accepted (s : Spec) (evs : List (UInt8 × Bytes)) (fin : Final) : Prop :=
  fin = .finished →
    match s.phase with
    | .startMagic => ∃ tail recs body, s.bytes = MAGIC ++ tail ∧ FramedTail tail recs body ∧
        evs = recs ++ [(op.FOOTER, body)]
    | .fileRecord => ∃ recs body, FramedTail s.bytes recs body ∧ evs = recs ++ [(op.FOOTER, body)]
    | .dataEnd len _ => ∃ recs body, 4 ≤ len ∧ len ≤ s.bytes.length ∧
        FramedTail (s.bytes.drop len) recs body ∧
        evs = (op.DATA_END, s.bytes.take len) :: (recs ++ [(op.FOOTER, body)])
    | .footer len _ => 20 ≤ len ∧ len ≤ s.bytes.length ∧ s.bytes.drop len = MAGIC ∧
        evs = [(op.FOOTER, s.bytes.take len)]
    | .endMagic => s.bytes = MAGIC ∧ evs = []
    | .afterEndMagic => s.bytes = [] ∧ evs = []
    | _ => True

section
variable {δ : Type} {D : Decompressor δ}
  {Δ : Decoding D framingOptions.recordLengthLimit} {s : Spec} {evs : List (UInt8 × Bytes)}

theorem atEof_ne_finished (h : s.phase.afterEnd = false) :
    s.atEof framingOptions ≠ .finished := by
  simp [Spec.atEof, h, framingOptions]

theorem leads_need {Q : Spec → List (UInt8 × Bytes) → Final → Prop} {n : Nat} {t : SpecTurn}
    (hp : s.phase.afterEnd = false) (h : Leads D Δ Q s evs .finished (s.need n t)) :
    n ≤ s.bytes.length ∧ Leads D Δ Q s evs .finished t := by
  unfold Spec.need at h
  split at h
  · exact absurd h.2.symm (atEof_ne_finished hp)
  · exact ⟨by omega, h⟩

theorem FramedTail.cons {bytes : Bytes} {recs : List (UInt8 × Bytes)} {body data : Bytes}
    {opcode : UInt8} {n : Nat} (h : FramedTail (bytes.drop n) recs body)
    (htake : bytes.take n = frame opcode data) (hf : opcode ≠ op.FOOTER)
    (hd : opcode = op.DATA_END → 4 ≤ data.length) : FramedTail bytes ((opcode, data) :: recs) body := by
  refine ⟨?_, ?_, ?_, h.footer⟩
  · calc bytes = bytes.take n ++ bytes.drop n := (List.take_append_drop n bytes).symm
      _ = frame opcode data ++ (frames recs ++ frame op.FOOTER body ++ MAGIC) := by
          rw [htake, ← h.bytes]
      _ = frames ((opcode, data) :: recs) ++ frame op.FOOTER body ++ MAGIC := by
          simp [frames, List.append_assoc]
  · intro p hp
    rcases List.mem_cons.mp hp with rfl | hp
    · exact hf
    · exact h.noFooter p hp
  · intro p hp
    rcases List.mem_cons.mp hp with rfl | hp
    · exact hd
    · exact h.dataEnd p hp

theorem accepted_fileRecord (hp : s.phase = .fileRecord)
    (h : Leads D Δ Accepted s evs .finished (s.fileRecord framingOptions)) :
    ∃ recs body, FramedTail s.bytes recs body ∧ evs = recs ++ [(op.FOOTER, body)] := by
  have hae : s.phase.afterEnd = false := by rw [hp]; rfl
  obtain ⟨h9, h⟩ := leads_need hae h
  rcases hol : opcodeAndLen (s.bytes.take OPCODE_LEN_SIZE) with ⟨opcode, len⟩
  simp only [hol] at h
  rw [if_neg (by simp [framingOptions])] at h
  by_cases hend : opcode = op.DATA_END
  · rw [if_pos hend] at h
    obtain ⟨recs, body, h4, hle, hrecs, rfl⟩ := h rfl
    simp only [List.length_drop] at h4 hle hrecs
    rw [List.drop_drop] at hrecs
    have hframe := frame_of_opcodeAndLen h9 hol (by omega)
    refine ⟨_, body, hrecs.cons hframe (by rw [hend]; decide) (fun _ => ?_), ?_⟩
    · rw [List.length_drop, List.length_take]
      omega
    · rw [hend, List.drop_take, Nat.add_sub_cancel_left]
      rfl
  rw [if_neg hend] at h
  by_cases hfoot : opcode = op.FOOTER
  · rw [if_pos hfoot] at h
    obtain ⟨h20, hle, hmagic, rfl⟩ := h rfl
    simp only [List.length_drop] at h20 hle hmagic
    rw [List.drop_drop] at hmagic
    have hframe := frame_of_opcodeAndLen h9 hol (by omega)
    refine ⟨[], (s.bytes.take (OPCODE_LEN_SIZE + len)).drop OPCODE_LEN_SIZE,
      ⟨?_, List.forall_mem_nil _, List.forall_mem_nil _, ?_⟩, ?_⟩
    · rw [← hfoot, ← hframe, ← hmagic]
      exact (List.take_append_drop _ _).symm
    · rw [List.length_drop, List.length_take]
      omega
    · rw [List.drop_take, Nat.add_sub_cancel_left]
      rfl
  rw [if_neg hfoot] at h
  simp only [framingOptions, checkLen_none] at h
  split at h
  · exact absurd h.2 (by simp)
  · obtain ⟨hlen, evs', rfl, hnext⟩ := leads_need hae h
    have h' := hnext rfl
    simp only [Spec.skip, hp] at h'
    obtain ⟨recs, body, hrecs, rfl⟩ := h'
    have hframe := frame_of_opcodeAndLen h9 hol hlen
    exact ⟨_, body, hrecs.cons hframe hfoot (fun h => absurd h hend), rfl⟩

theorem accepted_dataEnd {len : Nat} {calculated : Option UInt32}
    (hp : s.phase = .dataEnd len calculated)
    (h : Leads D Δ Accepted s evs .finished (s.dataEnd framingOptions len calculated)) :
    ∃ recs body, 4 ≤ len ∧ len ≤ s.bytes.length ∧ FramedTail (s.bytes.drop len) recs body ∧
      evs = (op.DATA_END, s.bytes.take len) :: (recs ++ [(op.FOOTER, body)]) := by
  have hae : s.phase.afterEnd = false := by rw [hp]; rfl
  unfold Spec.dataEnd at h
  simp only [framingOptions, checkLen_none] at h
  obtain ⟨hlen, h⟩ := leads_need hae h
  obtain ⟨herr, -⟩ := readLeFrom_takes DataEnd.takes_read (s.bytes.take len)
  rcases hread : readLeFrom DataEnd.read (s.bytes.take len) with e | ⟨rec, cur⟩
  · simp only [hread] at h
    exact absurd h.2 (by simp)
  have h4 : 4 ≤ len := by
    by_contra hlt
    obtain ⟨e, he⟩ := herr (by rw [List.length_take]; omega)
    rw [he] at hread
    cases hread
  simp only [hread] at h
  have hyield : ∀ {t : Spec}, t.phase = .fileRecord → t.bytes = s.bytes.drop len →
      (∃ evs', evs = (op.DATA_END, s.bytes.take len) :: evs' ∧ Accepted t evs' .finished) →
      ∃ recs body, 4 ≤ len ∧ len ≤ s.bytes.length ∧ FramedTail (s.bytes.drop len) recs body ∧
        evs = (op.DATA_END, s.bytes.take len) :: (recs ++ [(op.FOOTER, body)]) := by
    rintro t htp htb ⟨evs', rfl, ht⟩
    have ht' := ht rfl
    simp only [htp, htb] at ht'
    obtain ⟨recs, body, hrecs, rfl⟩ := ht'
    exact ⟨recs, body, h4, hlen, hrecs, rfl⟩
  rcases calculated with _ | calculated
  · exact hyield rfl rfl h
  · simp only at h
    split at h
    · exact absurd h.2 (by simp)
    · exact hyield rfl rfl h

theorem accepted_footer {len : Nat} {hasher : Option Hasher} (hp : s.phase = .footer len hasher)
    (h : Leads D Δ Accepted s evs .finished (s.footer framingOptions len hasher)) :
    20 ≤ len ∧ len ≤ s.bytes.length ∧ s.bytes.drop len = MAGIC ∧
      evs = [(op.FOOTER, s.bytes.take len)] := by
  have hae : s.phase.afterEnd = false := by rw [hp]; rfl
  unfold Spec.footer at h
  simp only [framingOptions, checkLen_none] at h
  obtain ⟨hlen, h⟩ := leads_need hae h
  obtain ⟨herr, -⟩ := readLeFrom_takes Footer.takes_read (s.bytes.take len)
  rcases hread : readLeFrom Footer.read (s.bytes.take len) with e | ⟨rec, cur⟩
  · simp only [hread] at h
    exact absurd h.2 (by simp)
  have h20 : 20 ≤ len := by
    by_contra hlt
    obtain ⟨e, he⟩ := herr (by rw [List.length_take]; omega)
    rw [he] at hread
    cases hread
  simp only [hread] at h
  have hyield : (∃ evs', evs = (op.FOOTER, s.bytes.take len) :: evs' ∧
      Accepted { s.skip len with phase := .endMagic } evs' .finished) →
      20 ≤ len ∧ len ≤ s.bytes.length ∧ s.bytes.drop len = MAGIC ∧
        evs = [(op.FOOTER, s.bytes.take len)] := by
    rintro ⟨evs', rfl, ht⟩
    obtain ⟨hmagic, rfl⟩ := ht rfl
    exact ⟨h20, hlen, hmagic, rfl⟩
  rcases hasher with _ | hasher
  · exact hyield h
  · simp only at h
    split at h
    · exact absurd h.2 (by simp)
    split at h
    · exact absurd h.2 (by simp)
    · exact hyield h

/-- **An accepting run frames what is left**, state by state. -/
theorem accepted_of_leads {fin : Final}
    (h : Leads D Δ Accepted s evs fin (s.turn D framingOptions)) : Accepted s evs fin := by
  rintro rfl
  unfold Spec.turn at h
  split at h <;> rename_i hp <;> rw [hp]
  · have hae : s.phase.afterEnd = false := by rw [hp]; rfl
    unfold Spec.startMagic at h
    rw [if_neg (by simp [framingOptions])] at h
    obtain ⟨hlen, h⟩ := leads_need hae h
    split at h
    · exact absurd h.2 (by simp)
    · rename_i hmagic
      rw [not_not] at hmagic
      obtain ⟨recs, body, hrecs, rfl⟩ := h rfl
      refine ⟨s.bytes.drop MAGIC.length, recs, body, ?_, hrecs, rfl⟩
      have hsplit := (List.take_append_drop MAGIC.length s.bytes).symm
      rwa [hmagic] at hsplit
  · exact accepted_fileRecord hp h
  · exact accepted_dataEnd hp h
  · exact accepted_footer hp h
  iterate 6 trivial
  · have hae : s.phase.afterEnd = false := by rw [hp]; rfl
    unfold Spec.endMagic at h
    rw [if_neg (by simp [framingOptions])] at h
    obtain ⟨hlen, h⟩ := leads_need hae h
    split at h
    · rename_i hmagic
      obtain ⟨hnil, rfl⟩ := h rfl
      refine ⟨?_, rfl⟩
      have hnil' : s.bytes.drop MAGIC.length = [] := hnil
      rw [← List.take_append_drop MAGIC.length s.bytes, hnil', hmagic, List.append_nil]
    · exact absurd h.2 (by simp)
  · unfold Spec.afterEndMagic at h
    rw [if_pos (by rfl)] at h
    split at h
    · exact absurd h.2 (by simp)
    · rename_i h0
      exact ⟨List.length_eq_zero_iff.mp (by omega), h.1⟩

/-! ## What is framed is accepted -/

theorem drop_frame (opcode : UInt8) (body rest : Bytes) :
    (frame opcode body ++ rest).drop OPCODE_LEN_SIZE = body ++ rest := by
  have hf : frame opcode body ++ rest = (opcode :: le 8 body.length) ++ (body ++ rest) := by
    simp [frame]
  rw [hf]
  exact List.drop_left' (by simp [OPCODE_LEN_SIZE, length_le])

theorem turn_frame {opcode : UInt8} {body rest : Bytes}
    (hlen : (frame opcode body ++ rest).length ≤ USIZE_MAX) :
    Spec.turn D framingOptions ⟨.fileRecord, frame opcode body ++ rest, none⟩ =
      if opcode = op.DATA_END then .again ⟨.dataEnd body.length none, body ++ rest, none⟩
      else if opcode = op.FOOTER then .again ⟨.footer body.length none, body ++ rest, none⟩
      else .record opcode body ⟨.fileRecord, rest, none⟩ := by
  rw [List.length_append, length_frame] at hlen
  have h9 : ¬ (frame opcode body ++ rest).length < OPCODE_LEN_SIZE := by
    rw [List.length_append, length_frame]
    simp only [OPCODE_LEN_SIZE]
    omega
  have hbody : ¬ (frame opcode body ++ rest).length < OPCODE_LEN_SIZE + body.length := by
    rw [List.length_append, length_frame]
    simp only [OPCODE_LEN_SIZE]
    omega
  have htake : (frame opcode body ++ rest).take (OPCODE_LEN_SIZE + body.length) =
      frame opcode body := List.take_left' (length_frame _ _)
  have hdrop : (frame opcode body ++ rest).drop (OPCODE_LEN_SIZE + body.length) = rest :=
    List.drop_left' (length_frame _ _)
  have hdata : (frame opcode body).drop OPCODE_LEN_SIZE = body := by
    have h := drop_frame opcode body []
    rwa [List.append_nil, List.append_nil] at h
  simp only [Spec.turn, Spec.fileRecord, Spec.need, if_neg h9,
    opcodeAndLen_frame (show body.length ≤ USIZE_MAX by omega), drop_frame]
  rw [if_neg (by simp [framingOptions])]
  split
  · rfl
  split
  · rfl
  · have hroom : ¬ OPCODE_LEN_SIZE + body.length > USIZE_MAX := by
      simp only [OPCODE_LEN_SIZE]
      omega
    simp only [framingOptions, checkLen_none, if_neg hroom, if_neg hbody, htake, hdata,
      Spec.skip, hdrop]
    rfl

theorem parses_footer {body : Bytes} (h20 : 20 ≤ body.length)
    (hlen : (frame op.FOOTER body ++ MAGIC).length ≤ USIZE_MAX) :
    Parses D Δ ⟨.fileRecord, frame op.FOOTER body ++ MAGIC, none⟩ [(op.FOOTER, body)] .finished := by
  have hfooter : Spec.turn D framingOptions ⟨.footer body.length none, body ++ MAGIC, none⟩ =
      .record op.FOOTER body ⟨.endMagic, MAGIC, none⟩ := by
    obtain ⟨-, hok⟩ := readLeFrom_takes Footer.takes_read body
    obtain ⟨rec, cur, hread⟩ := hok h20
    have hlt : ¬ (body ++ MAGIC).length < body.length := by
      rw [List.length_append]
      omega
    simp only [Spec.turn, Spec.footer, framingOptions, checkLen_none, Spec.need, if_neg hlt,
      List.take_left, List.drop_left, hread, Spec.skip]
    rfl
  have hmagic : Spec.turn D framingOptions ⟨.endMagic, MAGIC, none⟩ =
      .again ⟨.afterEndMagic, [], none⟩ := rfl
  have hend : Parses D Δ ⟨.afterEndMagic, [], none⟩ [] .finished :=
    Parses.eof (s := ⟨.afterEndMagic, [], none⟩) rfl
  have hframe : Spec.turn D framingOptions ⟨.fileRecord, frame op.FOOTER body ++ MAGIC, none⟩ =
      .again ⟨.footer body.length none, body ++ MAGIC, none⟩ :=
    (turn_frame hlen).trans (by rw [if_neg (by decide), if_pos rfl])
  exact .again hframe (.record hfooter (.again hmagic hend))

theorem parses_records {recs : List (UInt8 × Bytes)} {body : Bytes} :
    ∀ {tail : Bytes}, FramedTail tail recs body → tail.length ≤ USIZE_MAX →
      Parses D Δ ⟨.fileRecord, tail, none⟩ (recs ++ [(op.FOOTER, body)]) .finished := by
  induction recs with
  | nil =>
    intro tail h hlen
    rw [h.bytes] at hlen ⊢
    exact parses_footer h.footer hlen
  | cons p recs ih =>
    intro tail h hlen
    obtain ⟨opcode, data⟩ := p
    obtain ⟨rest, hrest, htail⟩ : ∃ rest, rest = frames recs ++ frame op.FOOTER body ++ MAGIC ∧
        tail = frame opcode data ++ rest := by
      refine ⟨_, rfl, ?_⟩
      rw [h.bytes]
      simp [frames, List.append_assoc]
    have hrecs : FramedTail rest recs body :=
      ⟨hrest, fun q hq => h.noFooter q (List.mem_cons_of_mem _ hq),
        fun q hq => h.dataEnd q (List.mem_cons_of_mem _ hq), h.footer⟩
    subst htail
    have hle : rest.length ≤ USIZE_MAX := by
      rw [List.length_append] at hlen
      omega
    have hf : opcode ≠ op.FOOTER := h.noFooter _ List.mem_cons_self
    by_cases hend : opcode = op.DATA_END
    · have h4 := h.dataEnd _ List.mem_cons_self hend
      have hdata : Spec.turn D framingOptions ⟨.dataEnd data.length none, data ++ rest, none⟩ =
          .record op.DATA_END data ⟨.fileRecord, rest, none⟩ := by
        obtain ⟨-, hok⟩ := readLeFrom_takes DataEnd.takes_read data
        obtain ⟨rec, cur, hread⟩ := hok h4
        have hlt : ¬ (data ++ rest).length < data.length := by
          rw [List.length_append]
          omega
        simp only [Spec.turn, Spec.dataEnd, framingOptions, checkLen_none, Spec.need, if_neg hlt,
          List.take_left, List.drop_left, hread]
        rfl
      refine .again ((turn_frame hlen).trans (if_pos hend)) ?_
      rw [hend]
      exact .record hdata (ih hrecs hle)
    · exact .record ((turn_frame hlen).trans (by rw [if_neg hend, if_neg hf])) (ih hrecs hle)

/-! ## Exactly the grammar -/

theorem turn_startMagic (tail : Bytes) :
    Spec.turn D framingOptions (Spec.init framingOptions (MAGIC ++ tail)) =
      .again ⟨.fileRecord, tail, none⟩ := by
  have hlt : ¬ (MAGIC ++ tail).length < MAGIC.length := by
    rw [List.length_append]
    omega
  have htake : (MAGIC ++ tail).take MAGIC.length = MAGIC := List.take_left
  have hdrop : (MAGIC ++ tail).drop MAGIC.length = tail := List.drop_left
  show Spec.startMagic framingOptions ⟨.startMagic, MAGIC ++ tail, none⟩ = _
  rw [Spec.startMagic, if_neg (by decide)]
  simp only [Spec.need, if_neg hlt, Spec.skip, htake, hdrop]
  rw [if_neg (fun h => h rfl)]
  rfl

/-- **The reader accepts exactly the framing grammar.**  Every driver sees the same;
the reader finishes if and only if the input is framed, and then the records it
yields, written out between the two magics, are the input. -/
theorem accepts_iff_framed (D : Decompressor δ) (bytes : Bytes) (hlen : bytes.length ≤ USIZE_MAX) :
    ∃ evs fin, Observes D (LinearReader.newWithOptions framingOptions) bytes evs fin ∧
      (fin = .finished ↔ Framed bytes) ∧
      (fin = .finished → bytes = MAGIC ++ frames evs ++ MAGIC) := by
  have hobs : ∀ {evs fin}, Parses D (noDecoding D _) (Spec.init framingOptions bytes) evs fin →
      Observes D (LinearReader.newWithOptions framingOptions) bytes evs fin := fun hp =>
    observes_of_parses hp (sim_init _ bytes)
  have hsound : ∀ {evs}, Parses D (noDecoding D _) (Spec.init framingOptions bytes) evs .finished →
      ∃ tail recs body, bytes = MAGIC ++ tail ∧ FramedTail tail recs body ∧
        evs = recs ++ [(op.FOOTER, body)] := fun hp =>
    Parses.elim D accepted_of_leads hp rfl
  by_cases hframed : Framed bytes
  · obtain ⟨tail, recs, body, rfl, hrecs⟩ := hframed
    have htail : tail.length ≤ USIZE_MAX := by
      rw [List.length_append] at hlen
      omega
    have hp : Parses D (noDecoding D _) (Spec.init framingOptions (MAGIC ++ tail))
        (recs ++ [(op.FOOTER, body)]) .finished :=
      .again (turn_startMagic tail) (parses_records hrecs htail)
    refine ⟨_, .finished, hobs hp, ⟨fun _ => ⟨tail, recs, body, rfl, hrecs⟩, fun _ => rfl⟩, fun _ => ?_⟩
    rw [hrecs.bytes]
    simp [frames]
  · obtain ⟨evs, fin, hp⟩ := parses_of_intact
      (intact_of_emitChunks (Δ := noDecoding D framingOptions.recordLengthLimit) rfl bytes)
    have hne : fin ≠ .finished := by
      rintro rfl
      obtain ⟨tail, recs, body, hb, hrecs, -⟩ := hsound hp
      exact hframed ⟨tail, recs, body, hb, hrecs⟩
    exact ⟨evs, fin, hobs hp, ⟨fun h => absurd h hne, fun h => absurd h hframed⟩,
      fun h => absurd h hne⟩

/-- The shortest file: a footer between two magics. -/
theorem accepts_iff_framed_footer :
    ∃ evs fin, Observes storedLz4 (LinearReader.newWithOptions framingOptions)
        (MAGIC ++ frame op.FOOTER (List.replicate 20 0) ++ MAGIC) evs fin ∧
      (fin = .finished ↔ Framed (MAGIC ++ frame op.FOOTER (List.replicate 20 0) ++ MAGIC)) ∧
      (fin = .finished → MAGIC ++ frame op.FOOTER (List.replicate 20 0) ++ MAGIC =
        MAGIC ++ frames evs ++ MAGIC) :=
  accepts_iff_framed storedLz4 _ (by decide)

end
end Mcap

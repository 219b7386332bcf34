import Mcap.Prefixes
import Mcap.Requests

/-! # Input that is cut off

A driver that has only a prefix of a byte string feeds it and then reports the end of the
input.  `EndsAs` says how every such run ends; which records it yields before need not be the
same for all drivers, since a compressed chunk that is cut off may be unpacked further or
less far.

The reader is compared with the one that has everything, `tail` included: the bytes that
never come (`EndsCut`).  A request that meets the end of the input gets the verdict `cutEof`.
Inside a chunk it is always an error; outside it is an error unless all bytes that came have
been read.
-/
namespace Mcap
open LinearReader (opcodeAndLen MIN_CHUNK_HEADER_SIZE)

variable {δ : Type} {D : Decompressor δ}

/-! ## How runs end -/

variable (D) in
/-- Every driver of a reader `r`, with `rest` still to be fed, sees the run end with
`fin`. -/
inductive EndsAs : LinearReader δ → Bytes → Final → Prop
  | record {r r' rest opcode data fin} :
      Returns D r (.ret r' (some (.ok (.record opcode data)))) →
      EndsAs r' rest fin → EndsAs r rest fin
  | request {r r' n rest fin} :
      Returns D r (.ret r' (some (.ok (.readRequest n)))) →
      (∀ {room piece rest' r''}, rest = piece ++ rest' → (piece = [] → rest' = []) →
        r'.feed room piece = some r'' → EndsAs r'' rest' fin) → EndsAs r rest fin
  | fail {r r' rest e} : Returns D r (.ret r' (some (.error e))) → EndsAs r rest (.failed e)
  | done {r r' rest} : Returns D r (.ret r' none) → EndsAs r rest .finished
  | panic {r rest} : Returns D r .panic → EndsAs r rest .panicked

variable {r : LinearReader δ} {rest : Bytes} {fin : Final}

theorem Observes.ends {evs : List (UInt8 × Bytes)}
    (h : Observes D r rest evs fin) : EndsAs D r rest fin := by
  induction h with
  | record hr _ ih => exact .record hr ih
  | request hr _ ih => exact .request hr fun hrest hpiece hfeed => ih hrest hpiece hfeed
  | fail hr => exact .fail hr
  | done hr => exact .done hr
  | panic hr => exact .panic hr

/-- **Every run ends as `EndsAs` says.** -/
theorem EndsAs.run {evs : List (UInt8 × Bytes)} {fin' : Final} (h : EndsAs D r rest fin)
    (h' : Run D r rest evs fin') : fin' = fin := by
  induction h' generalizing fin with
  | record hr' _ ih =>
    cases h with
    | record hr hrest =>
      cases hr.unique hr'
      exact ih hrest
    | request hr _ | fail hr | done hr | panic hr => cases hr.unique hr'
  | request hr' hpiece hfeed _ ih =>
    cases h with
    | request hr hrest =>
      cases hr.unique hr'
      exact ih (hrest rfl hpiece hfeed)
    | record hr _ | fail hr | done hr | panic hr => cases hr.unique hr'
  | fail hr' =>
    cases h with
    | fail hr => cases hr.unique hr'; rfl
    | record hr _ | request hr _ | done hr | panic hr => cases hr.unique hr'
  | done hr' =>
    cases h with
    | done hr => rfl
    | record hr _ | request hr _ | fail hr | panic hr => cases hr.unique hr'
  | panic hr' =>
    cases h with
    | panic hr => rfl
    | record hr _ | request hr _ | fail hr | done hr => cases hr.unique hr'

theorem EndsAs.exists_run (h : EndsAs D r rest fin) :
    ∃ evs, Run D r rest evs fin := by
  induction h with
  | record hr _ ih =>
    obtain ⟨evs, hrun⟩ := ih
    exact ⟨_, .record hr hrun⟩
  | @request r r' n rest fin hr _ ih =>
    obtain ⟨r'', hfeed⟩ := LinearReader.exists_feed (r := r') (Nat.le_refl rest.length)
    obtain ⟨evs, hrun⟩ := ih (List.append_nil rest).symm (fun _ => rfl) hfeed
    refine ⟨evs, ?_⟩
    have hreq := Run.request hr (fun _ => rfl) hfeed hrun
    rwa [List.append_nil] at hreq
  | fail hr => exact ⟨[], .fail hr⟩
  | done hr => exact ⟨[], .done hr⟩
  | panic hr => exact ⟨[], .panic hr⟩

theorem EndsAs.unique {fin' : Final} (h : EndsAs D r rest fin)
    (h' : EndsAs D r rest fin') : fin' = fin := by
  obtain ⟨evs, hrun⟩ := h'.exists_run
  exact h.run hrun

theorem EndsAs.of_returns {r' : LinearReader δ} (h : ∀ out, Returns D r' out → Returns D r out)
    (ho : EndsAs D r' rest fin) :
    EndsAs D r rest fin := by
  cases ho with
  | record hr hrest => exact .record (h _ hr) hrest
  | request hr hrest => exact .request (h _ hr) hrest
  | fail hr => exact .fail (h _ hr)
  | done hr => exact .done (h _ hr)
  | panic hr => exact .panic (h _ hr)

/-! ## The end of the input, before the end of the file -/

section
variable {o : LinearReaderOptions} {Δ : Decoding D o.recordLengthLimit} {r r' : LinearReader δ}
  {rest tail : Bytes} {s s' : Spec} {fin : Final} {evs : List (UInt8 × Bytes)} {len : Nat}

/-- The verdict at the end of the input, when `tail` never came. -/
def Spec.cutEof (o : LinearReaderOptions) (s : Spec) (tail : Bytes) : Final :=
  if (o.skipEndMagic ∨ s.phase.afterEnd) ∧ s.bytes.length = tail.length ∧ !s.phase.inChunk then
    .finished
  else .failed .unexpectedEof

theorem ends_cutEof {n : Nat} (hs : Sim Δ r tail s) (h : r.feed n [] = some r') :
    EndsAs D r' [] (s.cutEof o tail) := by
  have hnext := nextEvent_cut (D := D) hs h
  unfold Spec.cutEof
  split
  · rename_i hc
    simp only [if_pos hc] at hnext
    exact .done ⟨0, fun fuel _ => hnext fuel⟩
  · rename_i hc
    simp only [if_neg hc] at hnext
    exact .fail ⟨0, fun fuel _ => hnext fuel⟩

/-- Whoever drives a reader in the state `s` to the end of an input that lacks `tail` sees
the run end with `fin`. -/
def EndsCut (Δ : Decoding D o.recordLengthLimit) (tail : Bytes) (s : Spec) (fin : Final) : Prop :=
  ∀ r rest, Sim Δ r (rest ++ tail) s → EndsAs D r rest fin

/-- What the turn `t` leads to ends with `fin`, if `tail` is lacking. -/
def LeadsCut (Δ : Decoding D o.recordLengthLimit) (tail : Bytes) (fin : Final) : SpecTurn → Prop
  | .again s' => EndsCut Δ tail s' fin
  | .record _ _ s' => EndsCut Δ tail s' fin
  | .packed name size c n k => ∃ out, c.length = size ∧ out.length = n ∧ Unpacks Δ name c out ∧
      EndsCut Δ tail (k out) fin
  | .fail e => fin = .failed e
  | .done => fin = .finished
  | .panic => fin = .panicked
  | .eof => True

/-- One call of `next_event`, given what it leads to, that a request answered with some
bytes comes out right, and that one that meets the end of the input does. -/
theorem ends_of_matched {T : Turn δ} {t : SpecTurn} (hm : Matched Δ (rest ++ tail) s T t)
    (hl : LeadsCut Δ tail fin t) (hfed : ∀ {r piece rest'}, rest = piece ++ rest' → piece ≠ [] →
      Sim Δ r (rest' ++ tail) s → EndsAs D r rest' fin)
    (heof : (tail = [] → t = .eof) → fin = s.cutEof o tail) :
    ∀ {r : LinearReader δ} {N : Nat}, r.atEof = false →
      (∀ fuel, N ≤ fuel → r.turn D fuel = T) → EndsAs D r rest fin := by
  induction hm with
  | again hs' =>
    intro r N hr hT
    exact EndsAs.of_returns (fun out => Returns.of_again hr hs'.running hT) (hl _ _ hs')
  | record hs' =>
    intro r N hr hT
    exact .record (Returns.of_ret hr hT) (hl _ _ hs')
  | fail =>
    intro r N hr hT
    obtain rfl : fin = _ := hl
    exact .fail (Returns.of_ret hr hT)
  | done =>
    intro r N hr hT
    obtain rfl : fin = _ := hl
    exact .done (Returns.of_ret hr hT)
  | panic =>
    intro r N hr hT
    obtain rfl : fin = _ := hl
    exact .panic (Returns.of_panic hr hT)
  | packed hk =>
    intro r N hr hT
    obtain ⟨out, hsize, hlen, hunp, hl⟩ := hl
    have hs' := hk out hsize hlen hunp
    exact EndsAs.of_returns (fun out => Returns.of_again hr hs'.running hT) (hl _ _ hs')
  | request hs' hempty =>
    intro r N hr hT
    refine .request (Returns.of_ret hr hT) fun {room piece rest' r''} hrest hpiece hfeed => ?_
    by_cases hne : piece = []
    · obtain rfl := hpiece hne
      subst hne
      obtain rfl : rest = [] := hrest
      rw [heof fun htail => hempty htail]
      exact ends_cutEof hs' hfeed
    · rw [hrest, List.append_assoc] at hs'
      exact hfed hrest hne (hs'.feed hne hfeed)
  | once hr' hT' _ ih =>
    intro r N hr hT
    exact EndsAs.of_returns (fun out => Returns.of_again hr hr' hT) (ih hl heof hr' hT')

/-- **The step lemma of a cut run.**  A state may ask for input any number of times before it
moves on, or before the input ends. -/
theorem endsCut_of_leads (hl : LeadsCut Δ tail fin (s.turn D o))
    (heof : (tail = [] → s.turn D o = .eof) → fin = s.cutEof o tail) : EndsCut Δ tail s fin := by
  intro r rest hs
  induction hn : rest.length using Nat.strong_induction_on generalizing r rest with
  | _ n ih =>
    obtain ⟨N, T, hT, hm⟩ := sim_turn hs
    refine ends_of_matched hm hl (fun {r' piece rest'} hrest hne hs' => ?_) heof hs.running hT
    have hpos := List.length_pos_iff.mpr hne
    rw [hrest, List.length_append] at hn
    exact ih rest'.length (by omega) r' rest' hs' rfl

/-- **A run on whole input** that has yielded some records ends as it does from there. -/
theorem Yields.endsCut (h : Yields Δ s evs s') (he : EndsCut Δ [] s' fin) : EndsCut Δ [] s fin := by
  induction h with
  | refl s => exact he
  | again ht _ ih | record ht _ ih =>
    refine endsCut_of_leads (by rw [ht]; exact ih he) fun h => ?_
    cases ht.symm.trans (h rfl)
  | packed ht hsize hn hunp _ ih =>
    refine endsCut_of_leads (by rw [ht]; exact ⟨_, hsize, hn, hunp, ih he⟩) fun h => ?_
    cases ht.symm.trans (h rfl)

theorem Parses.endsCut (h : Parses D Δ s evs fin) :
    EndsCut Δ [] s fin := by
  intro r rest hs
  rw [List.append_nil] at hs
  exact (observes_of_parses h hs).ends

theorem endsCut_of_short (hout : s.phase.inChunk = false)
    (hlen : s.bytes.length < tail.length) : EndsCut Δ tail s fin := by
  intro r rest hs
  have hb := congrArg List.length (hs.outside hout).2.1.bytes
  simp only [List.length_append, List.nil_append] at hb
  omega

theorem cutEof_eq_error (h : s.phase.inChunk = true ∨ s.bytes.length ≠ tail.length) :
    s.cutEof o tail = .failed .unexpectedEof := by
  refine if_neg ?_
  rintro ⟨-, hlen, hout⟩
  rcases h with hin | hne
  · simp [hin] at hout
  · exact hne hlen

/-- **What the reader has, it can have with more to come**, outside a chunk. -/
theorem Sim.extend (hs : Sim Δ r rest s) (hout : s.phase.inChunk = false) :
    Sim Δ r (rest ++ tail) (s.append tail) := by
  refine ⟨hs.options, hs.running, hs.cached, ?_⟩
  have htop : ∀ {state}, r.AtTop rest s state → r.AtTop (rest ++ tail) (s.append tail) state := by
    intro state ht
    refine ⟨ht.state, ht.noChunk, ⟨?_, ht.ahead.hasher⟩, ht.empty⟩
    show r.fileData.unread ++ (rest ++ tail) = [] ++ (s.bytes ++ tail)
    rw [← List.append_assoc, ht.ahead.bytes]
    rfl
  have h := hs.phase
  obtain ⟨phase, bytes, hasher⟩ := s
  cases phase with
  | startMagic => exact htop h
  | fileRecord => exact htop h
  | chunkHeader len => exact ⟨htop h.1, h.2⟩
  | footer len hasher => exact htop h
  | dataEnd len calculated => exact htop h
  | endMagic => exact htop h
  | afterEndMagic => exact htop h
  | _ => cases hout

theorem EndsCut.of_append (h : EndsCut Δ tail (s.append tail) fin)
    (hout : s.phase.inChunk = false) : EndsCut Δ [] s fin := by
  intro r rest hs
  rw [List.append_nil] at hs
  exact h r rest (hs.extend hout)

/-! ## Inside a chunk -/

/-- What is left of a chunk in the input, from its header on. -/
def Phase.chunkLeft : Phase → Nat
  | .chunkHeader len => len
  | .validatingPlain remaining c => remaining + c.padding
  | .validatingPacked _ c => c.padding
  | .plainChunk remaining c => remaining + c.padding
  | .packedChunk _ _ _ c => c.padding
  | .paddingAfterChunk c => c.padding
  | _ => 0

/-- The turn takes off the input what it takes off the chunk, which it does not leave before
its end. -/
def KeepsChunk (s : Spec) : SpecTurn → Prop
  | .again s' | .record _ _ s' =>
      (s'.phase.inChunk = true ∨ s'.phase = .fileRecord) ∧
        s'.bytes.length + s.phase.chunkLeft = s.bytes.length + s'.phase.chunkLeft
  | .packed _ size c _ k => c.length = size → ∀ out, (k out).phase.inChunk = true ∧
      (k out).bytes.length + s.phase.chunkLeft = s.bytes.length + (k out).phase.chunkLeft
  | _ => True

theorem keepsChunk_need {n : Nat} {t : SpecTurn} (h : n ≤ s.bytes.length → KeepsChunk s t) :
    KeepsChunk s (s.need n t) := by
  rw [Spec.need]
  split
  · trivial
  · exact h (by omega)

theorem length_skip (s : Spec) (n : Nat) : (s.skip n).bytes.length = s.bytes.length - n := by
  rw [Spec.skip, List.length_drop]

theorem keepsChunk_enterChunk {s₁ : Spec} {header : ChunkHeader} {padding : Nat}
    (hp : s.phase = .chunkHeader len)
    (hlen : s₁.bytes.length + len = s.bytes.length + (header.compressedSize.toNat + padding)) :
    KeepsChunk s (Spec.enterChunk o s₁ header padding) := by
  simp only [Spec.enterChunk]
  split
  · refine ⟨.inl (by dsimp only; split <;> rfl), ?_⟩
    rw [hp]
    dsimp only
    split <;> exact hlen
  · intro hsize out
    rw [List.length_take] at hsize
    refine ⟨by dsimp only; split <;> rfl, ?_⟩
    rw [hp]
    have hskip := length_skip s₁ header.compressedSize.toNat
    dsimp only at hskip ⊢
    split <;> simp only [Phase.chunkLeft] <;> omega

theorem keepsChunk_chunkHeader (hp : s.phase = .chunkHeader len) :
    KeepsChunk s (s.chunkHeader D o len) := by
  unfold Spec.chunkHeader
  refine keepsChunk_need fun _ => keepsChunk_need fun hle => ?_
  generalize MIN_CHUNK_HEADER_SIZE + ofLe ((s.bytes.drop 28).take 4) = headerLen at hle
  split
  · trivial
  split
  · trivial
  split
  · trivial
  split
  · trivial
  split
  · trivial
  · rename_i header _ _ _ _ hshort hfit _ padding hcheck
    have hpadding := checkLen_eq hcheck
    refine keepsChunk_enterChunk hp ?_
    rw [length_skip]
    omega

/-- **Inside a chunk**, from its header on. -/
theorem keepsChunk_turn (hin : s.phase.inChunk = true ∨ ∃ len, s.phase = .chunkHeader len) :
    KeepsChunk s (s.turn D o) := by
  obtain ⟨phase, bytes, hasher⟩ := s
  rcases hin with hin | ⟨len, rfl⟩
  · cases phase with
    | validatingPlain remaining c =>
      simp only [Spec.turn, Spec.validatingPlain]
      split
      · trivial
      refine keepsChunk_need fun _ => ?_
      split
      · trivial
      · exact ⟨.inl rfl, rfl⟩
    | validatingPacked out c =>
      simp only [Spec.turn, Spec.validatingPacked]
      split
      · trivial
      split
      · trivial
      split
      · trivial
      · exact ⟨.inl rfl, rfl⟩
    | plainChunk remaining c =>
      simp only [Spec.turn, Spec.plainChunk]
      split
      · rename_i h0
        refine ⟨.inl rfl, ?_⟩
        simp only [Phase.chunkLeft, h0, Nat.zero_add]
      refine keepsChunk_need fun _ => ?_
      split
      · trivial
      split
      · trivial
      refine keepsChunk_need fun hle => ?_
      split
      · trivial
      · refine ⟨.inl rfl, ?_⟩
        simp only [Phase.chunkLeft, length_skip]
        dsimp only at hle ⊢
        omega
    | packedChunk out base validated c =>
      simp only [Spec.turn, Spec.packedChunk]
      split
      · exact ⟨.inl rfl, rfl⟩
      split
      · trivial
      split
      · trivial
      split
      · trivial
      split
      · trivial
      split
      · trivial
      split
      · trivial
      · exact ⟨.inl rfl, rfl⟩
    | paddingAfterChunk c =>
      simp only [Spec.turn, Spec.paddingAfterChunk]
      refine keepsChunk_need fun hle => ?_
      have hleft : KeepsChunk ⟨.paddingAfterChunk c, bytes, hasher⟩
          (.again { Spec.skip ⟨.paddingAfterChunk c, bytes, hasher⟩ c.padding with
            phase := .fileRecord }) := by
        refine ⟨.inr rfl, ?_⟩
        simp only [Phase.chunkLeft, length_skip]
        dsimp only at hle ⊢
        omega
      split
      · exact hleft
      · split
        · trivial
        · exact hleft
    | _ => cases hin
  · exact keepsChunk_chunkHeader rfl

/-- **A chunk that is cut off** is not left: the run ends with an error. -/
theorem endsCut_inChunk (h : Yields Δ s evs s') (hout : s'.phase.inChunk = false)
    (hin : s.phase.inChunk = true) (hcut : s.bytes.length < tail.length + s.phase.chunkLeft) :
    EndsCut Δ tail s (.failed .unexpectedEof) := by
  -- where a turn leads to is cut off as well, or cannot be reached
  have hstep : ∀ {s t : Spec}, s.phase.inChunk = true →
      s.bytes.length < tail.length + s.phase.chunkLeft →
      (t.phase.inChunk = true ∨ t.phase = .fileRecord) ∧
        t.bytes.length + s.phase.chunkLeft = s.bytes.length + t.phase.chunkLeft →
      (t.phase.inChunk = true → t.bytes.length < tail.length + t.phase.chunkLeft →
        EndsCut Δ tail t (.failed .unexpectedEof)) →
      EndsCut Δ tail t (.failed .unexpectedEof) := by
    rintro s t hin hcut ⟨hphase, hlen⟩ ih
    rcases hphase with hin' | hfile
    · exact ih hin' (by omega)
    · refine endsCut_of_short (by rw [hfile]; rfl) ?_
      have hzero : t.phase.chunkLeft = 0 := by rw [hfile]; rfl
      omega
  induction h with
  | refl s => rw [hin] at hout; cases hout
  | again ht _ ih | record ht _ ih =>
    have hkeeps := keepsChunk_turn (D := D) (o := o) (.inl hin)
    rw [ht] at hkeeps
    refine endsCut_of_leads ?_ fun _ => (cutEof_eq_error (.inl hin)).symm
    rw [ht]
    exact hstep hin hcut hkeeps (ih hout)
  | @packed s _ name size c n k out _ ht hsize hn hunp _ ih =>
    have hkeeps := keepsChunk_turn (D := D) (o := o) (.inl hin)
    rw [ht] at hkeeps
    obtain ⟨hin', hlen⟩ := hkeeps hsize out
    refine endsCut_of_leads ?_ fun _ => (cutEof_eq_error (.inl hin)).symm
    rw [ht]
    exact ⟨out, hsize, hn, hunp, ih hout hin' (by omega)⟩

theorem endsCut_of_keeps {t : Spec} (hkeeps : (t.phase.inChunk = true ∨ t.phase = .fileRecord) ∧
      t.bytes.length + s.phase.chunkLeft = s.bytes.length + t.phase.chunkLeft)
    (hcut : s.bytes.length < tail.length + s.phase.chunkLeft) (hy : Yields Δ t evs s')
    (hout : s'.phase.inChunk = false) : EndsCut Δ tail t (.failed .unexpectedEof) := by
  obtain ⟨hphase, hlen⟩ := hkeeps
  rcases hphase with hin | hfile
  · exact endsCut_inChunk hy hout hin (by omega)
  · refine endsCut_of_short (by rw [hfile]; rfl) ?_
    have hzero : t.phase.chunkLeft = 0 := by rw [hfile]; rfl
    omega

/-! ## Inside a record -/

/-- The header of the record is read off the input by itself, before its body. -/
def HeaderFirst (o : LinearReaderOptions) (opcode : UInt8) : Prop :=
  opcode = op.CHUNK ∧ o.emitChunks = false ∨ opcode = op.DATA_END ∨ opcode = op.FOOTER

/-- The turn yields the body of the record, of `len` bytes, or fails. -/
def TakesBody (s : Spec) (len : Nat) : SpecTurn → Prop
  | .record _ _ s' => s'.phase.inChunk = false ∧ s'.bytes.length + len = s.bytes.length
  | .again _ | .packed .. => False
  | _ => True

theorem takesBody_dataEnd {calculated : Option UInt32} :
    TakesBody s len (s.dataEnd o len calculated) := by
  unfold Spec.dataEnd
  split
  · trivial
  rename_i n hcheck
  obtain rfl := checkLen_eq hcheck
  rw [Spec.need]
  split
  · trivial
  rename_i hle
  have hbody : TakesBody s n (.record op.DATA_END (s.bytes.take n)
      { phase := .fileRecord
        bytes := s.bytes.drop n
        hasher := if o.validateSummarySectionCrc then some Hasher.new else s.hasher }) := by
    refine ⟨rfl, ?_⟩
    rw [List.length_drop]
    omega
  split
  · trivial
  dsimp only
  split
  · split
    · trivial
    · exact hbody
  · exact hbody

theorem takesBody_footer {hasher : Option Hasher} :
    TakesBody s len (s.footer o len hasher) := by
  unfold Spec.footer
  split
  · trivial
  rename_i n hcheck
  obtain rfl := checkLen_eq hcheck
  rw [Spec.need]
  split
  · trivial
  rename_i hle
  have hbody : TakesBody s n (.record op.FOOTER (s.bytes.take n)
      { s.skip n with phase := .endMagic }) := by
    refine ⟨rfl, ?_⟩
    show (s.skip n).bytes.length + n = _
    rw [length_skip]
    omega
  split
  · trivial
  dsimp only
  split
  · exact hbody
  · split
    · trivial
    · split
      · trivial
      · exact hbody

theorem endsCut_body (hb : TakesBody s len (s.turn D o)) (hlen : s.bytes.length = len)
    (hne : len ≠ tail.length) (htail : tail ≠ []) (hs : s.phase.inChunk = false)
    (hy : Yields Δ s evs s') (hend : s'.bytes = []) :
    EndsCut Δ tail s (.failed .unexpectedEof) := by
  have htpos := List.length_pos_iff.mpr htail
  by_cases hshort : s.bytes.length < tail.length
  · exact endsCut_of_short hs hshort
  refine endsCut_of_leads ?_ fun _ => (cutEof_eq_error (.inr (by omega))).symm
  cases hy with
  | refl =>
    rw [hend, List.length_nil] at hshort
    omega
  | again ht _ =>
    rw [ht] at hb
    exact hb.elim
  | record ht _ =>
    rw [ht] at hb ⊢
    exact endsCut_of_short hb.1 (by have := hb.2; omega)
  | packed ht _ _ _ _ =>
    rw [ht] at hb
    exact hb.elim

theorem endsCut_chunkHeader (hp : s.phase = .chunkHeader len) (hlen : s.bytes.length = len)
    (hne : len ≠ tail.length) (htail : tail ≠ []) (hy : Yields Δ s evs s')
    (hout : s'.phase.inChunk = false)
    (hend : s'.bytes = []) : EndsCut Δ tail s (.failed .unexpectedEof) := by
  have htpos := List.length_pos_iff.mpr htail
  have hcut : s.bytes.length < tail.length + s.phase.chunkLeft := by
    rw [hp, hlen]
    show len < tail.length + len
    omega
  by_cases hshort : s.bytes.length < tail.length
  · exact endsCut_of_short (by rw [hp]; rfl) hshort
  have hkeeps := keepsChunk_turn (D := D) (o := o) (.inr ⟨len, hp⟩)
  refine endsCut_of_leads ?_ fun _ => (cutEof_eq_error (.inr (by omega))).symm
  cases hy with
  | refl =>
    rw [hend, List.length_nil] at hshort
    omega
  | again ht hrest | record ht hrest =>
    rw [ht] at hkeeps ⊢
    exact endsCut_of_keeps hkeeps hcut hrest hout
  | @packed _ _ name size c n k out _ ht hsize hn hunp hrest =>
    rw [ht] at hkeeps ⊢
    obtain ⟨hin, hk⟩ := hkeeps hsize out
    exact ⟨out, hsize, hn, hunp, endsCut_of_keeps ⟨.inl hin, hk⟩ hcut hrest hout⟩

/-- **A record that is cut off** ends the run with an error, unless the input ends behind its
opcode and its length, and these are read off the input by themselves. -/
theorem ends_inRecord {opcode : UInt8} {body part : Bytes} {h : Option Hasher}
    (hframe : frame opcode body = part ++ tail) (hmem : (frame opcode body).length ≤ USIZE_MAX)
    (hy : Yields Δ ⟨.fileRecord, frame opcode body, h⟩ evs s') (hout : s'.phase.inChunk = false)
    (hend : s'.bytes = []) (hpart : part ≠ []) (htail : tail ≠ [])
    (hcut : ¬ (part.length = 9 ∧ HeaderFirst o opcode)) :
    EndsCut Δ [] ⟨.fileRecord, part, h⟩ (.failed .unexpectedEof) := by
  have hwhole : Spec.append ⟨.fileRecord, part, h⟩ tail = ⟨.fileRecord, frame opcode body, h⟩ := by
    rw [hframe]
    rfl
  suffices hcut : EndsCut Δ tail (Spec.append ⟨.fileRecord, part, h⟩ tail)
      (.failed .unexpectedEof) from hcut.of_append rfl
  rw [hwhole]
  have hlen := congrArg List.length hframe
  rw [length_frame, List.length_append] at hlen
  have hpos := List.length_pos_iff.mpr hpart
  have htpos := List.length_pos_iff.mpr htail
  have hturn := turn_fileRecord (D := D) (o := o) [] h hmem
  rw [List.append_nil, List.append_nil] at hturn
  refine endsCut_of_leads ?_ fun _ => (cutEof_eq_error (.inr ?_)).symm
  · -- the first turn reads the record, or its header
    have hafter : ∀ t : Spec, Spec.turn D o ⟨.fileRecord, frame opcode body, h⟩ = .again t →
        Yields Δ t evs s' := by
      intro t ht
      cases hy with
      | refl => exact absurd hend (by simp [frame])
      | again ht' hrest =>
        cases ht.symm.trans ht'
        exact hrest
      | record ht' _ | packed ht' _ _ _ _ => cases ht.symm.trans ht'
    have hne : HeaderFirst o opcode → body.length ≠ tail.length := fun hfirst heq =>
      hcut ⟨by omega, hfirst⟩
    split at hturn
    · rename_i hc
      have hfirst : HeaderFirst o opcode := .inl ⟨hc.1, by simpa using hc.2⟩
      rw [hturn]
      exact endsCut_chunkHeader rfl rfl (hne hfirst) htail (hafter _ hturn) hout hend
    split at hturn
    · rename_i hdata
      rw [hturn]
      exact endsCut_body takesBody_dataEnd rfl (hne (.inr (.inl hdata))) htail rfl
        (hafter _ hturn) hend
    split at hturn
    · rename_i hfoot
      rw [hturn]
      exact endsCut_body takesBody_footer rfl (hne (.inr (.inr hfoot))) htail rfl
        (hafter _ hturn) hend
    split at hturn
    · cases hy with
      | refl => exact absurd hend (by simp [frame])
      | again ht' _ | record ht' _ | packed ht' _ _ _ _ => cases hturn.symm.trans ht'
    · rw [hturn]
      exact endsCut_of_short rfl htpos
  · show (frame opcode body).length ≠ tail.length
    rw [length_frame]
    omega

/-- **The input ends behind the header of a record** that is read off the input by itself:
the reader has read all there is, and takes this for the end of a record. -/
theorem ends_behindHeader {opcode : UInt8} {body part : Bytes} {h : Option Hasher}
    (hskip : o.skipEndMagic = true) (hframe : frame opcode body = part ++ tail)
    (hmem : (frame opcode body).length ≤ USIZE_MAX) (hpart : part.length = 9)
    (hfirst : HeaderFirst o opcode) (hbody : Admits o body.length) (h0 : body ≠ []) :
    EndsCut Δ [] ⟨.fileRecord, part, h⟩ .finished := by
  obtain rfl : part = opcode :: le 8 body.length := by
    have htake := congrArg (List.take 9) hframe
    rw [List.take_left' hpart, ← List.append_nil (frame opcode body)] at htake
    rw [← htake]
    exact take_frame opcode body []
  have hpos := List.length_pos_iff.mpr h0
  rw [length_frame] at hmem
  have hheader : (opcode :: le 8 body.length).length = OPCODE_LEN_SIZE := by
    simp [OPCODE_LEN_SIZE]
  have hol : opcodeAndLen ((opcode :: le 8 body.length).take OPCODE_LEN_SIZE) =
      (opcode, body.length) := by
    have hfront : opcodeAndLen ((frame opcode body ++ []).take OPCODE_LEN_SIZE) =
        (opcode, body.length) := opcodeAndLen_frame (by omega)
    rw [take_frame] at hfront
    rwa [List.take_of_length_le hheader.le]
  have hdrop : (opcode :: le 8 body.length).drop OPCODE_LEN_SIZE = [] :=
    List.drop_eq_nil_of_le hheader.le
  have hneed : ∀ (phase : Phase) (h : Option Hasher) {n : Nat} (t : SpecTurn), 0 < n →
      Spec.need ⟨phase, [], h⟩ n t = .eof := fun _ _ _ _ hn => if_pos hn
  -- the header is read, and what is read next meets the end of the input
  have hturn : ∃ phase h', Spec.turn D o ⟨.fileRecord, opcode :: le 8 body.length, h⟩ =
      .again ⟨phase, [], h'⟩ ∧ phase.inChunk = false ∧
      Spec.turn D o ⟨phase, [], h'⟩ = .eof := by
    simp only [Spec.turn, Spec.fileRecord]
    rw [Spec.need_of_le (by dsimp only; omega)]
    simp only [hol, Spec.skip, hdrop]
    have hadmits : checkLen body.length o.recordLengthLimit = some body.length := hbody
    split
    · exact ⟨_, _, rfl, rfl, hneed _ _ _ (by decide)⟩
    rename_i hchunk
    split
    · refine ⟨_, _, rfl, rfl, ?_⟩
      simp only [Spec.dataEnd, hadmits]
      exact hneed _ _ _ hpos
    rename_i hdata
    split
    · refine ⟨_, _, rfl, rfl, ?_⟩
      simp only [Spec.footer, hadmits]
      exact hneed _ _ _ hpos
    rename_i hfoot
    rcases hfirst with ⟨hc, hemit⟩ | hd | hf
    · exact absurd ⟨hc, by rw [hemit]; rfl⟩ hchunk
    · exact absurd hd hdata
    · exact absurd hf hfoot
  obtain ⟨phase, h', hread, hout, heof⟩ := hturn
  have hverdict : Spec.atEof o ⟨phase, [], h'⟩ = .finished := by
    simp [Spec.atEof, hskip, hout]
  have hparses : Parses D Δ ⟨.fileRecord, opcode :: le 8 body.length, h⟩ [] .finished := by
    refine .again hread ?_
    rw [← hverdict]
    exact .eof heof
  exact hparses.endsCut

end
end Mcap

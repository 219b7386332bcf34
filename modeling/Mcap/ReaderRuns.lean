import Mcap.ReaderSim

/-! # Whole runs of the streaming reader

A driver calls `next_event`, answers each read request with some of the bytes
that come next, and reports zero bytes only at the end of the input.  `Run` is
what one driver sees; `Observes` says that every driver sees the same: it
quantifies over the pieces at each request, and a run of it always ends.

`observes_of_parses` is the run lemma: what a reader that has everything does on
a byte string is what every driver of the streaming reader sees on it.  It is by
induction on the run and, inside, on the bytes not fed yet, because a state may
ask for input any number of times.
-/
namespace Mcap

variable {δ : Type} (D : Decompressor δ)

/-! ## Drivers -/

/-- `next_event` returns: enough fuel gives `out`. -/
def Returns (r : LinearReader δ) (out : Outcome δ) : Prop :=
  ∃ N, ∀ fuel, N ≤ fuel → r.nextEvent D fuel = out

/-- What one driver sees of a reader `r`, with `rest` still to be fed: the records
and how it ends. -/
inductive Run : LinearReader δ → Bytes → List (UInt8 × Bytes) → Final → Prop
  | record {r r' rest opcode data evs fin} :
      Returns D r (.ret r' (some (.ok (.record opcode data)))) →
      Run r' rest evs fin → Run r rest ((opcode, data) :: evs) fin
  | request {r r' r'' n room piece rest evs fin} :
      Returns D r (.ret r' (some (.ok (.readRequest n)))) →
      (piece = [] → rest = []) → r'.feed room piece = some r'' →
      Run r'' rest evs fin → Run r (piece ++ rest) evs fin
  | fail {r r' rest e} : Returns D r (.ret r' (some (.error e))) → Run r rest [] (.failed e)
  | done {r r' rest} : Returns D r (.ret r' none) → Run r rest [] .finished
  | panic {r rest} : Returns D r .panic → Run r rest [] .panicked

/-- What every driver sees of a reader `r`, with `rest` still to be fed. -/
inductive Observes : LinearReader δ → Bytes → List (UInt8 × Bytes) → Final → Prop
  | record {r r' rest opcode data evs fin} :
      Returns D r (.ret r' (some (.ok (.record opcode data)))) →
      Observes r' rest evs fin → Observes r rest ((opcode, data) :: evs) fin
  | request {r r' n rest evs fin} :
      Returns D r (.ret r' (some (.ok (.readRequest n)))) →
      (∀ {room piece rest' r''}, rest = piece ++ rest' → (piece = [] → rest' = []) →
        r'.feed room piece = some r'' → Observes r'' rest' evs fin) → Observes r rest evs fin
  | fail {r r' rest e} : Returns D r (.ret r' (some (.error e))) → Observes r rest [] (.failed e)
  | done {r r' rest} : Returns D r (.ret r' none) → Observes r rest [] .finished
  | panic {r rest} : Returns D r .panic → Observes r rest [] .panicked

variable {D} {r : LinearReader δ}

theorem Returns.unique {a b : Outcome δ} (ha : Returns D r a) (hb : Returns D r b) : a = b := by
  obtain ⟨N, hN⟩ := ha
  obtain ⟨M, hM⟩ := hb
  rw [← hN (max N M) (Nat.le_max_left _ _), ← hM (max N M) (Nat.le_max_right _ _)]

/-- **Every driver sees what `Observes` says.** -/
theorem Observes.run {rest : Bytes} {evs evs' : List (UInt8 × Bytes)} {fin fin' : Final}
    (h : Observes D r rest evs fin) (h' : Run D r rest evs' fin') :
    evs' = evs ∧ fin' = fin := by
  induction h' generalizing evs fin with
  | record hr' _ ih =>
    cases h with
    | record hr hrest =>
      cases hr.unique hr'
      obtain ⟨rfl, rfl⟩ := ih hrest
      exact ⟨rfl, rfl⟩
    | request hr _ | fail hr | done hr | panic hr => cases hr.unique hr'
  | request hr' hpiece hfeed _ ih =>
    cases h with
    | request hr hrest =>
      cases hr.unique hr'
      exact ih (hrest rfl hpiece hfeed)
    | record hr _ | fail hr | done hr | panic hr => cases hr.unique hr'
  | fail hr' =>
    cases h with
    | fail hr => cases hr.unique hr'; exact ⟨rfl, rfl⟩
    | record hr _ | request hr _ | done hr | panic hr => cases hr.unique hr'
  | done hr' =>
    cases h with
    | done hr => exact ⟨rfl, rfl⟩
    | record hr _ | request hr _ | fail hr | panic hr => cases hr.unique hr'
  | panic hr' =>
    cases h with
    | panic hr => exact ⟨rfl, rfl⟩
    | record hr _ | request hr _ | fail hr | done hr => cases hr.unique hr'

/-! ## From turns to calls -/

section
variable {r : LinearReader δ} (hr : r.atEof = false) {N : Nat}
include hr

theorem Returns.of_ret {r' : LinearReader δ} {ev : NextEvent}
    (hT : ∀ fuel, N ≤ fuel → r.turn D fuel = .ret r' ev) : Returns D r (.ret r' ev) := by
  refine ⟨N + 1, ?_⟩
  rintro (_ | fuel) hf
  · omega
  · rw [LinearReader.nextEvent, hr, LinearReader.loop, hT _ (by omega)]
    rfl

theorem Returns.of_panic (hT : ∀ fuel, N ≤ fuel → r.turn D fuel = .panic) :
    Returns D r .panic := by
  refine ⟨N + 1, ?_⟩
  rintro (_ | fuel) hf
  · omega
  · rw [LinearReader.nextEvent, hr, LinearReader.loop, hT _ (by omega)]
    rfl

theorem Returns.of_again {r' : LinearReader δ} (hr' : r'.atEof = false)
    (hT : ∀ fuel, N ≤ fuel → r.turn D fuel = .again r') {out : Outcome δ}
    (h : Returns D r' out) : Returns D r out := by
  obtain ⟨M, hM⟩ := h
  refine ⟨max N M + 1, ?_⟩
  rintro (_ | fuel) hf
  · omega
  · rw [← hM fuel (by omega), LinearReader.nextEvent, LinearReader.nextEvent, hr, hr',
      LinearReader.loop, hT _ (by omega)]
    rfl

end

theorem Observes.of_returns {r' : LinearReader δ} {rest : Bytes} {evs : List (UInt8 × Bytes)}
    {fin : Final} (h : ∀ out, Returns D r' out → Returns D r out)
    (ho : Observes D r' rest evs fin) : Observes D r rest evs fin := by
  cases ho with
  | record hr hrest => exact .record (h _ hr) hrest
  | request hr hrest => exact .request (h _ hr) hrest
  | fail hr => exact .fail (h _ hr)
  | done hr => exact .done (h _ hr)
  | panic hr => exact .panic (h _ hr)

/-! ## Feeding -/

section
variable {o : LinearReaderOptions} {Δ : Decoding D o.recordLengthLimit} {r r' : LinearReader δ}
  {rest : Bytes} {s : Spec} {n : Nat} {piece : Bytes} {evs : List (UInt8 × Bytes)}

theorem feed_eq (h : r.feed n piece = some r') :
    ∃ fileData : RwBuf, fileData.Shows (r.fileData.unread ++ piece) r.fileData.hasher ∧
      r' = { r with fileData, atEof := r.atEof || piece.length = 0 } := by
  unfold LinearReader.feed at h
  split at h
  · cases h
  · rename_i fileData hw
    split at h
    · rename_i hle
      obtain ⟨b, hb, hv⟩ := r.fileData.feed_shows hle
      rw [hw] at hb
      obtain rfl := Option.some.inj hb
      exact ⟨fileData, hv, (Option.some.inj h).symm⟩
    · cases h

theorem Ahead.feed {b b' : RwBuf} {c bytes : Bytes} {h : Option Hasher}
    (ha : Ahead b (piece ++ rest) c bytes h) (hv : b'.Shows (b.unread ++ piece) b.hasher) :
    Ahead b' rest c bytes h := by
  refine ⟨?_, ?_⟩
  · rw [hv.unread, List.append_assoc]
    exact ha.bytes
  · rw [hv.hasher]
    exact ha.hasher

/-- **Feeding keeps the phase**: no state reads more from the buffer than what is
ahead. -/
theorem InPhase.feed {fileData : RwBuf} {atEof : Bool} {phase : Phase}
    (h : r.InPhase Δ (piece ++ rest) s phase)
    (hv : fileData.Shows (r.fileData.unread ++ piece) r.fileData.hasher) :
    LinearReader.InPhase Δ { r with fileData, atEof } rest s phase := by
  have htop : ∀ {state}, r.AtTop (piece ++ rest) s state →
      LinearReader.AtTop { r with fileData, atEof } rest s state := fun ht =>
    ⟨ht.state, ht.noChunk, ht.ahead.feed hv, ht.empty⟩
  have hplain : ∀ {state remaining c st}, r.InPlain (piece ++ rest) s state remaining c st →
      LinearReader.InPlain { r with fileData, atEof } rest s state remaining c st := fun ht =>
    ⟨ht.state, ht.chunk, ht.plain, ht.remaining, ht.hasher, ht.crc, ht.padding, ht.ahead.feed hv,
      ht.empty⟩
  have hpacked : ∀ {state out c name st d comp pend},
      r.InPacked Δ (piece ++ rest) s state out c name st d comp pend →
      LinearReader.InPacked Δ { r with fileData, atEof } rest s state out c name st d comp pend :=
    fun ht => ⟨ht.state, ht.chunk, ht.packed, ht.known, ht.mid, ht.compressed, ht.uncompressed,
      ht.out, ht.hasher, ht.crc, ht.padding, ht.ahead.feed hv, ht.total, ht.room⟩
  cases phase with
  | startMagic => exact htop h
  | fileRecord => exact htop h
  | chunkHeader len => exact ⟨htop h.1, h.2⟩
  | footer len hasher => exact htop h
  | dataEnd len calculated => exact htop h
  | validatingPlain remaining c | plainChunk remaining c =>
    obtain ⟨st, ht⟩ := h
    exact ⟨st, hplain ht⟩
  | validatingPacked out c =>
    obtain ⟨name, st, d, comp, pend, ht, hlen, hstart⟩ := h
    exact ⟨name, st, d, comp, pend, hpacked ht, hlen, hstart⟩
  | packedChunk out base validated c =>
    obtain ⟨name, st, d, comp, pend, ht, hstart, hval⟩ := h
    exact ⟨name, st, d, comp, pend, hpacked ht, hstart, hval⟩
  | paddingAfterChunk c =>
    obtain ⟨st, comp, ht⟩ := h
    exact ⟨st, comp, ht.state, ht.chunk, ht.padding, ht.crc, ht.ahead.feed hv, ht.empty, ht.hasher⟩
  | endMagic => exact htop h
  | afterEndMagic => exact htop h

theorem Sim.feed (hs : Sim Δ r (piece ++ rest) s) (hne : piece ≠ [])
    (h : r.feed n piece = some r') : Sim Δ r' rest s := by
  obtain ⟨fileData, hv, rfl⟩ := feed_eq h
  refine ⟨hs.options, ?_, hs.cached, InPhase.feed hs.phase hv⟩
  rw [hs.running, Bool.false_or, decide_eq_false_iff_not]
  exact fun h0 => hne (List.length_eq_zero_iff.mp h0)

theorem Sim.chunk_iff (hs : Sim Δ r rest s) :
    (r.chunkState.isNone = true) ↔ s.phase.inChunk = false := by
  have h := hs.phase
  cases hp : s.phase <;> rw [hp] at h
  case validatingPlain | plainChunk =>
    obtain ⟨st, ht⟩ := h
    simp [ht.chunk, Phase.inChunk]
  case validatingPacked | packedChunk =>
    obtain ⟨name, st, d, comp, pend, ht, -⟩ := h
    simp [ht.chunk, Phase.inChunk]
  case paddingAfterChunk =>
    obtain ⟨st, comp, ht⟩ := h
    simp [ht.chunk, Phase.inChunk]
  case chunkHeader => simp [h.1.noChunk, Phase.inChunk]
  all_goals simp [LinearReader.AtTop.noChunk h, Phase.inChunk]

theorem Sim.outside (hs : Sim Δ r rest s) (hout : s.phase.inChunk = false) :
    (r.currentlyReading = .afterEndMagic ↔ s.phase.afterEnd = true) ∧
      Ahead r.fileData rest [] s.bytes s.hasher ∧ r.decompressedContent.unread = [] := by
  have h := hs.phase
  have hkey : ∀ {state}, r.AtTop rest s state → (state = .afterEndMagic ↔ s.phase.afterEnd = true) →
      (r.currentlyReading = .afterEndMagic ↔ s.phase.afterEnd = true) ∧
      Ahead r.fileData rest [] s.bytes s.hasher ∧ r.decompressedContent.unread = [] := by
    intro state ht hiff
    exact ⟨by rw [ht.state]; exact hiff, ht.ahead, ht.empty⟩
  cases hp : s.phase <;> rw [hp] at h hout hkey
  case validatingPlain | plainChunk | validatingPacked | packedChunk | paddingAfterChunk =>
    cases hout
  case chunkHeader => exact hkey h.1 (by simp [Phase.afterEnd])
  all_goals exact hkey h (by simp [Phase.afterEnd])

/-- What `next_event` returns at the end of the input. -/
def Final.event : Final → NextEvent
  | .finished => none
  | .failed e => some (.error e)
  | .panicked => none

theorem nextEvent_cut {tail : Bytes} (hs : Sim Δ r tail s) (h : r.feed n [] = some r')
    (fuel : Nat) : r'.nextEvent D fuel = .ret r'
      (if (o.skipEndMagic ∨ s.phase.afterEnd) ∧ s.bytes.length = tail.length ∧ !s.phase.inChunk then
        none else some (.error .unexpectedEof)) := by
  obtain ⟨fileData, hv, rfl⟩ := feed_eq h
  have hopt := hs.options
  rw [List.append_nil] at hv
  have hiff : ((r.options.skipEndMagic = true ∨ r.currentlyReading = .afterEndMagic) ∧
      fileData.len = 0 ∧ r.decompressedContent.len = 0 ∧ r.chunkState.isNone = true) ↔
      ((o.skipEndMagic = true ∨ s.phase.afterEnd = true) ∧ s.bytes.length = tail.length ∧
        (!s.phase.inChunk) = true) := by
    rw [hs.chunk_iff, hopt]
    by_cases hin : s.phase.inChunk = true
    · simp [hin]
    · obtain ⟨hstate, ha, hempty⟩ := hs.outside (by simpa using hin)
      have hb := congrArg List.length ha.bytes
      rw [List.length_append, List.nil_append] at hb
      have hlen : fileData.len = r.fileData.unread.length := hv.len
      have hdec : r.decompressedContent.len = 0 := by rw [← RwBuf.length_unread, hempty]; rfl
      have hzero : fileData.len = 0 ↔ s.bytes.length = tail.length := by omega
      simp [hstate, hzero, hdec, hin]
  have hnext : LinearReader.nextEvent D fuel { r with fileData, atEof := true } =
      if (r.options.skipEndMagic = true ∨ r.currentlyReading = .afterEndMagic) ∧
        fileData.len = 0 ∧ r.decompressedContent.len = 0 ∧ r.chunkState.isNone = true
      then .ret { r with fileData, atEof := true } none
      else .ret { r with fileData, atEof := true } (some (.error .unexpectedEof)) := rfl
  simp only [hiff] at hnext
  simp only [List.length_nil, decide_true, Bool.or_true]
  rw [hnext]
  split <;> rfl

theorem nextEvent_atEof (hs : Sim Δ r [] s) (h : r.feed n [] = some r') (fuel : Nat) :
    r'.nextEvent D fuel = .ret r' (s.atEof o).event := by
  rw [nextEvent_cut hs h, Spec.atEof]
  simp only [List.length_nil, List.length_eq_zero_iff]
  split <;> rfl

theorem observes_atEof (hs : Sim Δ r [] s) (h : r.feed n [] = some r') :
    Observes D r' [] [] (s.atEof o) := by
  have hnext := nextEvent_atEof (D := D) hs h
  unfold Spec.atEof at hnext ⊢
  split
  · rename_i hc
    simp only [if_pos hc] at hnext
    exact .done ⟨0, fun fuel _ => hnext fuel⟩
  · rename_i hc
    simp only [if_neg hc] at hnext
    exact .fail ⟨0, fun fuel _ => hnext fuel⟩

/-! ## The run lemma -/

/-- Whoever drives a reader in the state `s` sees `evs` and `fin`. -/
def Seen (Δ : Decoding D o.recordLengthLimit) (s : Spec) (evs : List (UInt8 × Bytes))
    (fin : Final) : Prop :=
  ∀ r rest, Sim Δ r rest s → Observes D r rest evs fin

/-- One call of `next_event`, given what it leads to and that a request answered
with some bytes comes out right. -/
theorem observes_of_matched {fin : Final} {T : Turn δ} {t : SpecTurn} (hm : Matched Δ rest s T t)
    (hl : Leads D Δ (Seen Δ) s evs fin t)
    (hfed : ∀ {r piece rest'}, rest = piece ++ rest' → piece ≠ [] → Sim Δ r rest' s →
      Observes D r rest' evs fin) :
    ∀ {r : LinearReader δ} {N : Nat}, r.atEof = false →
      (∀ fuel, N ≤ fuel → r.turn D fuel = T) → Observes D r rest evs fin := by
  induction hm with
  | again hs' =>
    intro r N hr hT
    exact Observes.of_returns (fun out => Returns.of_again hr hs'.running hT) (hl _ _ hs')
  | record hs' =>
    intro r N hr hT
    obtain ⟨evs', rfl, hl⟩ := hl
    exact .record (Returns.of_ret hr hT) (hl _ _ hs')
  | fail =>
    intro r N hr hT
    obtain ⟨rfl, rfl⟩ := hl
    exact .fail (Returns.of_ret hr hT)
  | done =>
    intro r N hr hT
    obtain ⟨rfl, rfl⟩ := hl
    exact .done (Returns.of_ret hr hT)
  | panic =>
    intro r N hr hT
    obtain ⟨rfl, rfl⟩ := hl
    exact .panic (Returns.of_panic hr hT)
  | packed hk =>
    intro r N hr hT
    obtain ⟨out, hsize, hlen, hunp, hl⟩ := hl
    have hs' := hk out hsize hlen hunp
    exact Observes.of_returns (fun out => Returns.of_again hr hs'.running hT) (hl _ _ hs')
  | request hs' heof =>
    intro r N hr hT
    refine .request (Returns.of_ret hr hT) fun {room piece rest' r''} hrest hpiece hfeed => ?_
    by_cases hne : piece = []
    · obtain rfl := hpiece hne
      subst hne
      obtain rfl : rest = [] := hrest
      rw [heof rfl] at hl
      obtain ⟨rfl, rfl⟩ := hl
      exact observes_atEof hs' hfeed
    · rw [hrest] at hs'
      exact hfed hrest hne (hs'.feed hne hfeed)
  | once hr' hT' _ ih =>
    intro r N hr hT
    exact Observes.of_returns (fun out => Returns.of_again hr hr' hT) (ih hl hr' hT')

theorem seen_of_leads {fin : Final}
    (hl : Leads D Δ (Seen Δ) s evs fin (s.turn D o)) : Seen Δ s evs fin := by
  intro r rest hs
  induction hn : rest.length using Nat.strong_induction_on generalizing r rest with
  | _ n ih =>
    obtain ⟨N, T, hT, hm⟩ := sim_turn hs
    refine observes_of_matched hm hl (fun {r' piece rest'} hrest hne hs' => ?_) hs.running hT
    have hpos := List.length_pos_iff.mpr hne
    rw [hrest, List.length_append] at hn
    exact ih rest'.length (by omega) r' rest' hs' rfl

/-- **The run lemma**: what the reader that has everything does is what every
driver of the streaming reader sees. -/
theorem observes_of_parses {fin : Final} (h : Parses D Δ s evs fin)
    (hs : Sim Δ r rest s) : Observes D r rest evs fin :=
  Parses.elim D seen_of_leads h r rest hs

theorem sim_init (Δ : Decoding D o.recordLengthLimit) (bytes : Bytes) :
    Sim Δ (LinearReader.newWithOptions o) bytes (Spec.init o bytes) := by
  refine ⟨rfl, rfl, (fun _ _ h => nomatch h), ?_⟩
  have ha : Ahead (RwBuf.new o.validateDataSectionCrc) bytes [] bytes
      (if o.validateDataSectionCrc then some Hasher.new else none) := ⟨rfl, absorb_nil _⟩
  show LinearReader.InPhase Δ _ bytes _ (if o.skipStartMagic then .fileRecord else .startMagic)
  by_cases hskip : o.skipStartMagic = true
  · rw [if_pos hskip]
    exact ⟨if_pos hskip, rfl, ha, rfl⟩
  · rw [if_neg hskip]
    exact ⟨if_neg hskip, rfl, ha, rfl⟩

end
end Mcap

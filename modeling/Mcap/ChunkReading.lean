import Mcap.Doctor
import Mcap.Fragmentation

/-! # Reading a chunk to its end

A caller of `InnerReader::next` that goes on behind an error comes to the end of a chunk only if the
reader recovers from the error.  It does from a record that cannot be parsed and from a checksum that
does not match, and it does not from an input that ends too soon (`next_atEof`).

`plain_ends_iff` is the result for a chunk that is not compressed, by induction on what is left of it: the
records end with the chunk.
-/
namespace Mcap
open LinearReader (opcodeAndLen)

section
variable {δ : Type} {D : Decompressor δ}

/-! ## Events -/

variable (D) in
/-- The next event of the reader that is not a request; requests are answered with what is left of the
slice. -/
def InnerReader.nextRaw : Nat → InnerReader δ → Next (InnerReader δ) (Except McapError (UInt8 × Bytes))
  | 0, _ => .spin
  | fuel + 1, s =>
      match s.reader.nextEvent D (fuel + 1) with
      | .ret reader (some (.ok (.readRequest need))) =>
          let len := min s.buf.length need
          match reader.feed len (s.buf.take len) with
          | none => .panic
          | some reader => nextRaw fuel ⟨s.buf.drop len, reader⟩
      | .ret reader (some (.ok (.record opcode data))) => .item (.ok (opcode, data)) ⟨s.buf, reader⟩
      | .ret reader (some (.error e)) => .item (.error e) ⟨s.buf, reader⟩
      | .ret reader none => .ended ⟨s.buf, reader⟩
      | .panic => .panic
      | .spin => .spin

theorem InnerReader.nextRaw_succ (fuel : Nat) (s : InnerReader δ) : s.nextRaw D (fuel + 1) =
    match s.reader.nextEvent D (fuel + 1) with
    | .ret reader (some (.ok (.readRequest need))) =>
        match reader.feed (min s.buf.length need) (s.buf.take (min s.buf.length need)) with
        | none => .panic
        | some reader => InnerReader.nextRaw D fuel ⟨s.buf.drop (min s.buf.length need), reader⟩
    | .ret reader (some (.ok (.record opcode data))) => .item (.ok (opcode, data)) ⟨s.buf, reader⟩
    | .ret reader (some (.error e)) => .item (.error e) ⟨s.buf, reader⟩
    | .ret reader none => .ended ⟨s.buf, reader⟩
    | .panic => .panic
    | .spin => .spin := rfl

/-- An event with its record parsed. -/
def parsedNext {S : Type} :
    Next S (Except McapError (UInt8 × Bytes)) → Next S (Except McapError Record)
  | .item (.ok (opcode, data)) s => parsedItem opcode data s
  | .item (.error e) s => .item (.error e) s
  | .ended s => .ended s
  | .panic => .panic
  | .spin => .spin

theorem parsedItem_ne_spin {S : Type} (opcode : UInt8) (data : Bytes) (s : S) :
    parsedItem opcode data s ≠ .spin := by
  unfold parsedItem
  split <;> simp

theorem parsedNext_eq_spin {S : Type} {out : Next S (Except McapError (UInt8 × Bytes))} :
    parsedNext out = .spin ↔ out = .spin := by
  rcases out with ⟨e | ⟨opcode, data⟩, s⟩ | s | _ | _
  case item.ok => simp [parsedNext, parsedItem_ne_spin]
  all_goals simp [parsedNext]

/-- **`InnerReader::next`** parses the records of the reader. -/
theorem InnerReader.next_eq (fuel : Nat) (s : InnerReader δ) :
    s.next D fuel = parsedNext (s.nextRaw D fuel) := by
  induction fuel generalizing s with
  | zero => rfl
  | succ fuel ih =>
    rw [InnerReader.next, InnerReader.nextRaw_succ]
    rcases s.reader.nextEvent D (fuel + 1) with ⟨reader, _ | ⟨e | ⟨need⟩ | ⟨opcode, data⟩⟩⟩ | _ | _
    case ret.some.ok.readRequest =>
      simp only [InnerReader.react]
      rcases reader.feed (min s.buf.length need) (s.buf.take (min s.buf.length need)) with _ | reader
      · rfl
      · exact ih _
    all_goals rfl

theorem InnerReader.rising_nextRaw : Next.Rising (InnerReader.nextRaw D) := by
  intro fuel
  induction fuel with
  | zero => exact fun _ _ _ hne => absurd rfl hne
  | succ fuel ih =>
    rintro (_ | fuel') s hle hne
    · omega
    · rw [InnerReader.nextRaw_succ] at hne ⊢
      rw [InnerReader.nextRaw_succ]
      have hspin : s.reader.nextEvent D (fuel + 1) ≠ .spin := by
        intro h
        rw [h] at hne
        exact hne rfl
      rw [LinearReader.nextEvent_mono hle hspin]
      clear hspin
      generalize s.reader.nextEvent D (fuel + 1) = out at hne
      split
      · dsimp only at hne ⊢
        split
        · rfl
        · rename_i hfeed
          rw [hfeed] at hne
          exact ih fuel' _ (by omega) hne
      all_goals rfl

theorem InnerReader.rising_next : Next.Rising (InnerReader.next D) := by
  intro fuel fuel' s hle hne
  rw [InnerReader.next_eq, Ne, parsedNext_eq_spin] at hne
  rw [InnerReader.next_eq, InnerReader.next_eq, InnerReader.rising_nextRaw fuel fuel' s hle hne]

theorem InnerReader.comes_next_iff {i : InnerReader δ} {x : Next (InnerReader δ) (Except McapError Record)}
    (hne : x ≠ .spin) : Comes (InnerReader.next D) i x ↔
      ∃ out, Comes (InnerReader.nextRaw D) i out ∧ parsedNext out = x := by
  constructor
  · rintro ⟨N, hN⟩
    have hlast := hN N (Nat.le_refl N)
    rw [InnerReader.next_eq] at hlast
    have hspin : i.nextRaw D N ≠ .spin := fun h => hne (hlast.symm.trans (parsedNext_eq_spin.mpr h))
    exact ⟨_, InnerReader.rising_nextRaw.comes rfl hspin, hlast⟩
  · rintro ⟨out, ⟨N, hN⟩, rfl⟩
    exact ⟨N, fun fuel hfuel => by rw [InnerReader.next_eq, hN fuel hfuel]⟩

section
variable {r r' : LinearReader δ} {rest : Bytes}
  {x : Next (InnerReader δ) (Except McapError (UInt8 × Bytes))}

theorem InnerReader.shows_of_returns {out : Outcome δ} (h : Returns D r out)
    (hx : ∀ fuel, r.nextEvent D (fuel + 1) = out → InnerReader.nextRaw D (fuel + 1) ⟨rest, r⟩ = x) :
    Comes (InnerReader.nextRaw D) ⟨rest, r⟩ x := by
  obtain ⟨N, hN⟩ := h
  refine ⟨N + 1, ?_⟩
  rintro (_ | fuel) hfuel
  · omega
  · exact hx fuel (hN (fuel + 1) (by omega))

theorem InnerReader.shows_record {opcode : UInt8} {data : Bytes}
    (h : Returns D r (.ret r' (some (.ok (.record opcode data))))) :
    Comes (InnerReader.nextRaw D) ⟨rest, r⟩ (.item (.ok (opcode, data)) ⟨rest, r'⟩) :=
  shows_of_returns h fun _ hout => by rw [InnerReader.nextRaw_succ, hout]

theorem InnerReader.shows_error {e : McapError} (h : Returns D r (.ret r' (some (.error e)))) :
    Comes (InnerReader.nextRaw D) ⟨rest, r⟩ (.item (.error e) ⟨rest, r'⟩) :=
  shows_of_returns h fun _ hout => by rw [InnerReader.nextRaw_succ, hout]

theorem InnerReader.shows_ended (h : Returns D r (.ret r' none)) :
    Comes (InnerReader.nextRaw D) ⟨rest, r⟩ (.ended ⟨rest, r'⟩) :=
  shows_of_returns h fun _ hout => by rw [InnerReader.nextRaw_succ, hout]

theorem InnerReader.shows_panic (h : Returns D r .panic) :
    Comes (InnerReader.nextRaw D) ⟨rest, r⟩ .panic :=
  shows_of_returns h fun _ hout => by rw [InnerReader.nextRaw_succ, hout]

theorem InnerReader.shows_of_request {r'' : LinearReader δ} {n : Nat}
    (h : Returns D r (.ret r' (some (.ok (.readRequest n)))))
    (hfeed : r'.feed (min rest.length n) (rest.take (min rest.length n)) = some r'')
    (hx : Comes (InnerReader.nextRaw D) ⟨rest.drop (min rest.length n), r''⟩ x) :
    Comes (InnerReader.nextRaw D) ⟨rest, r⟩ x := by
  obtain ⟨N, hN⟩ := h
  obtain ⟨M, hM⟩ := hx
  refine ⟨max N M + 1, ?_⟩
  rintro (_ | fuel) hf
  · omega
  · rw [InnerReader.nextRaw_succ, hN (fuel + 1) (by omega)]
    simp only [hfeed]
    exact hM fuel (by omega)

theorem InnerReader.shows_of_same (h : ∀ out, Returns D r' out → Returns D r out) (hne : x ≠ .spin)
    (hx : Comes (InnerReader.nextRaw D) ⟨rest, r'⟩ x) : Comes (InnerReader.nextRaw D) ⟨rest, r⟩ x := by
  obtain ⟨N, hN⟩ := hx
  have hout : r'.nextEvent D (N + 1) ≠ .spin := by
    intro hspin
    have hlast := hN (N + 1) (by omega)
    rw [InnerReader.nextRaw_succ, hspin] at hlast
    exact hne hlast.symm
  have hret' := returns_of_nextEvent D rfl hout
  obtain ⟨M, hM⟩ := h _ hret'
  obtain ⟨M', hM'⟩ := hret'
  refine ⟨max N (max M M') + 1, ?_⟩
  rintro (_ | fuel) hfuel
  · omega
  · rw [← hN (fuel + 1) (by omega), InnerReader.nextRaw_succ, InnerReader.nextRaw_succ,
      hM (fuel + 1) (by omega), hM' (fuel + 1) (by omega)]

theorem InnerReader.comes_of_same {x : Next (InnerReader δ) (Except McapError Record)}
    (h : ∀ out, Returns D r' out → Returns D r out) (hne : x ≠ .spin)
    (hx : Comes (InnerReader.next D) ⟨rest, r'⟩ x) : Comes (InnerReader.next D) ⟨rest, r⟩ x := by
  rw [InnerReader.comes_next_iff hne] at hx ⊢
  obtain ⟨out, hout, rfl⟩ := hx
  exact ⟨out, InnerReader.shows_of_same h (fun hspin => hne (parsedNext_eq_spin.mpr hspin)) hout, rfl⟩

end

/-! ## The next event of a state -/

variable {o : LinearReaderOptions} {Δ : Decoding D o.recordLengthLimit} {s : Spec} {rest : Bytes}
  {r : LinearReader δ}
  {Q : Next (InnerReader δ) (Except McapError (UInt8 × Bytes)) → Prop}

/-- The next event of a reader in the state `s` is as `Q` says. -/
def Told (Δ : Decoding D o.recordLengthLimit)
    (Q : Next (InnerReader δ) (Except McapError (UInt8 × Bytes)) → Prop) (s : Spec) : Prop :=
  ∀ r rest, Sim Δ r rest s → ∃ out, Comes (InnerReader.nextRaw D) ⟨rest, r⟩ out ∧ out ≠ .spin ∧ Q out

/-- What `Q` has to say about the turn `t` of `s`. -/
def Tells (Δ : Decoding D o.recordLengthLimit)
    (Q : Next (InnerReader δ) (Except McapError (UInt8 × Bytes)) → Prop) (s : Spec) : SpecTurn → Prop
  | .again s' => Told Δ Q s'
  | .record opcode data s' => ∀ r rest, Sim Δ r rest s' → Q (.item (.ok (opcode, data)) ⟨rest, r⟩)
  | .fail e => ∀ i, Q (.item (.error e) i)
  | .done => ∀ i, Q (.ended i)
  | .panic => Q .panic
  | .eof => ∀ r, (∀ fuel, r.nextEvent D fuel = .ret r (s.atEof o).event) →
      ∀ out, Comes (InnerReader.nextRaw D) ⟨[], r⟩ out → Q out
  | .packed .. => False

theorem told_of_matched {T : Turn δ} {t : SpecTurn} (hm : Matched Δ rest s T t) (ht : Tells Δ Q s t)
    (hfed : ∀ {r piece rest'}, rest = piece ++ rest' → piece ≠ [] → Sim Δ r rest' s →
      ∃ out, Comes (InnerReader.nextRaw D) ⟨rest', r⟩ out ∧ out ≠ .spin ∧ Q out) :
    ∀ {r : LinearReader δ} {N : Nat}, r.atEof = false → (∀ fuel, N ≤ fuel → r.turn D fuel = T) →
      ∃ out, Comes (InnerReader.nextRaw D) ⟨rest, r⟩ out ∧ out ≠ .spin ∧ Q out := by
  induction hm with
  | again hs' =>
    intro r N hr hT
    obtain ⟨out, hcomes, hne, hQ⟩ := ht _ _ hs'
    exact ⟨out, InnerReader.shows_of_same (fun out => Returns.of_again hr hs'.running hT) hne hcomes,
      hne, hQ⟩
  | record hs' =>
    intro r N hr hT
    exact ⟨_, InnerReader.shows_record (Returns.of_ret hr hT), by simp, ht _ _ hs'⟩
  | fail =>
    intro r N hr hT
    exact ⟨_, InnerReader.shows_error (Returns.of_ret hr hT), by simp, ht _⟩
  | done =>
    intro r N hr hT
    exact ⟨_, InnerReader.shows_ended (Returns.of_ret hr hT), by simp, ht _⟩
  | panic =>
    intro r N hr hT
    exact ⟨_, InnerReader.shows_panic (Returns.of_panic hr hT), by simp, ht⟩
  | packed => exact ht.elim
  | @request r' n t hs' heof =>
    intro r N hr hT
    have hreturns := Returns.of_ret hr hT
    have hlen : (rest.take (min rest.length n)).length ≤ min rest.length n := by
      rw [List.length_take]
      omega
    obtain ⟨r'', hfeed⟩ := LinearReader.exists_feed (r := r') hlen
    have hpos := LinearReader.request_pos hreturns
    by_cases hnil : rest = []
    · -- nothing is left to answer with
      subst hnil
      rw [heof rfl] at ht
      have hnext := nextEvent_atEof (D := D) hs' (show r'.feed (min ([] : Bytes).length n) [] = some r''
        from hfeed)
      have hlast : ∃ out, Comes (InnerReader.nextRaw D) ⟨[], r''⟩ out ∧ out ≠ .spin := by
        have hret : Returns D r'' (.ret r'' (s.atEof o).event) := ⟨0, fun fuel _ => hnext fuel⟩
        unfold Spec.atEof at hret
        split at hret
        · exact ⟨_, InnerReader.shows_ended hret, by simp⟩
        · exact ⟨_, InnerReader.shows_error hret, by simp⟩
      obtain ⟨out, hlast, hne⟩ := hlast
      exact ⟨out, InnerReader.shows_of_request hreturns hfeed hlast, hne, ht r'' hnext _ hlast⟩
    · have hne : rest.take (min rest.length n) ≠ [] := by
        have hrest := List.length_pos_iff.mpr hnil
        rw [← List.length_pos_iff, List.length_take]
        omega
      have hsplit : rest = rest.take (min rest.length n) ++ rest.drop (min rest.length n) :=
        (List.take_append_drop ..).symm
      have hs'' : Sim Δ r'' (rest.drop (min rest.length n)) s := by
        rw [hsplit] at hs'
        exact hs'.feed hne hfeed
      obtain ⟨out, hcomes, hspin, hQ⟩ := hfed hsplit hne hs''
      exact ⟨out, InnerReader.shows_of_request hreturns hfeed hcomes, hspin, hQ⟩
  | once hr' hT' _ ih =>
    intro r N hr hT
    obtain ⟨out, hcomes, hne, hQ⟩ := ih ht hr' hT'
    exact ⟨out, InnerReader.shows_of_same (fun out => Returns.of_again hr hr' hT) hne hcomes, hne, hQ⟩

/-- **The next event**: a state may ask for input any number of times before there is one. -/
theorem told_of_turn (ht : Tells Δ Q s (s.turn D o)) : Told Δ Q s := by
  intro r rest hs
  induction hn : rest.length using Nat.strong_induction_on generalizing r rest with
  | _ n ih =>
    obtain ⟨N, T, hT, hm⟩ := sim_turn hs
    refine told_of_matched hm ht (fun {r' piece rest'} hrest hne hs' => ?_) hs.running hT
    have hpos := List.length_pos_iff.mpr hne
    rw [hrest, List.length_append] at hn
    exact ih rest'.length (by omega) r' rest' hs' rfl

/-- **The next call**, by the next event. -/
theorem Told.next (ht : Told Δ Q s) (hs : Sim Δ r rest s) :
    ∃ out, Comes (InnerReader.next D) ⟨rest, r⟩ (parsedNext out) ∧ Q out := by
  obtain ⟨out, hout, hne, hQ⟩ := ht r rest hs
  exact ⟨out, (InnerReader.comes_next_iff (mt parsedNext_eq_spin.mp hne)).mpr ⟨out, hout, rfl⟩, hQ⟩

/-- The first state from here on in which the reader does not just go on. -/
inductive Spec.Meets {δ : Type} (D : Decompressor δ) (o : LinearReaderOptions) : Spec → Spec → Prop
  | here {s : Spec} : (∀ s', s.turn D o ≠ .again s') → Meets D o s s
  | again {s s' t : Spec} : s.turn D o = .again s' → Meets D o s' t → Meets D o s t

theorem Spec.exists_meets (D : Decompressor δ) (o : LinearReaderOptions) (s : Spec) :
    ∃ t, Spec.Meets D o s t := by
  induction s using Spec.smaller_wf.induction with
  | _ s ih =>
    have hsmaller := Spec.turn_smaller (D := D) (o := o) s
    by_cases hagain : ∃ s', s.turn D o = .again s'
    · obtain ⟨s', hs'⟩ := hagain
      rw [hs'] at hsmaller
      obtain ⟨t, ht⟩ := ih s' hsmaller
      exact ⟨t, .again hs' ht⟩
    · exact ⟨s, .here fun s' hs' => hagain ⟨s', hs'⟩⟩

theorem Spec.Meets.stops {s t s' : Spec} (h : s.Meets D o t) : t.turn D o ≠ .again s' := by
  induction h with
  | here hstop => exact hstop s'
  | again _ _ ih => exact ih

theorem tells_eof {t : Spec} :
    Tells Δ (fun out => (∃ i, out = .ended i) ∨ ∃ e i, out = .item (.error e) i) t .eof := by
  intro r hnext out hout
  have hret : Returns D r (.ret r (t.atEof o).event) := ⟨0, fun fuel _ => hnext fuel⟩
  unfold Spec.atEof at hret
  split at hret
  · exact .inl ⟨_, hout.unique (InnerReader.shows_ended hret)⟩
  · exact .inr ⟨_, _, hout.unique (InnerReader.shows_error hret)⟩

theorem told_of_meets {t : Spec} (h : s.Meets D o t) (ht : Tells Δ Q t (t.turn D o)) : Told Δ Q s := by
  induction h with
  | here => exact told_of_turn ht
  | again hs' _ ih =>
    refine told_of_turn ?_
    rw [hs']
    exact ih ht

theorem not_drains_of_stuck {i : InnerReader δ} {e : Except McapError Record}
    (h : Comes (InnerReader.next D) i (.item e i)) (items : List (Except McapError Record)) :
    ¬ Drains (InnerReader.next D) i items .finished := by
  intro hd
  generalize hfin : Ending.finished = fin at hd
  induction hd with
  | item hc _ ih =>
    cases hc.unique h
    exact ih h hfin
  | ended hc => cases hc.unique h
  | panic => cases hfin

/-- **An input that ends too soon is never read to its end**: each call gives the error again. -/
theorem not_drains_of_eof (ht : s.turn D o = .eof) (hfail : s.atEof o ≠ .finished)
    (hs : Sim Δ r rest s) (items : List (Except McapError Record)) :
    ¬ Drains (InnerReader.next D) ⟨rest, r⟩ items .finished := by
  have heof : s.atEof o = .failed .unexpectedEof := by
    unfold Spec.atEof at hfail ⊢
    split at hfail
    · exact absurd rfl hfail
    · rename_i hc
      rw [if_neg hc]
  have htold : Told Δ (fun out => ∃ i, out = .item (.error .unexpectedEof) i ∧
      Comes (InnerReader.next D) i (.item (.error .unexpectedEof) i)) s := by
    refine told_of_turn ?_
    rw [ht]
    intro r' hnext out hout
    rw [heof] at hnext
    have hsame : Comes (InnerReader.nextRaw D) ⟨[], r'⟩ (.item (.error .unexpectedEof) ⟨[], r'⟩) :=
      InnerReader.shows_error ⟨0, fun fuel _ => hnext fuel⟩
    exact ⟨_, hout.unique hsame, (InnerReader.comes_next_iff (by simp)).mpr ⟨_, hsame, rfl⟩⟩
  obtain ⟨_, hcomes, i, rfl, hstuck⟩ := htold.next hs
  intro hd
  cases hd with
  | item hc hrest =>
    cases hc.unique hcomes
    exact not_drains_of_stuck hstuck _ hrest
  | ended hc => cases hc.unique hcomes

theorem InnerReader.drains_of_same {r' : LinearReader δ} {items : List (Except McapError Record)}
    (h : ∀ out, Returns D r' out → Returns D r out)
    (hd : Drains (InnerReader.next D) ⟨rest, r'⟩ items .finished) :
    Drains (InnerReader.next D) ⟨rest, r⟩ items .finished := by
  cases hd with
  | item hc hrest => exact .item (comes_of_same h (by simp) hc) hrest
  | ended hc => exact .ended (comes_of_same h (by simp) hc)

end

/-! ## The end of a chunk -/

section
variable {δ : Type} {D : Decompressor δ} {r : LinearReader δ} {rest : Bytes} {c : OpenChunk}
  {h hasher : Option Hasher} {opcode : UInt8} {body bytes : Bytes} {header : ChunkHeader}

/-- The reader stands behind the records of a chunk that is not compressed, at the end of its input.
`hasher` has absorbed the records, if the checksum is still to be compared. -/
structure AtChunkEnd (D : Decompressor δ) (r : LinearReader δ) (hasher : Option Hasher) : Prop where
  options : r.options = chunkReaderOptions
  running : r.atEof = false
  cached : Cached (o := chunkReaderOptions) (noDecoding D none) r.decompressors
  state : r.currentlyReading = .paddingAfterChunk
  chunk : ∃ st, r.chunkState = some st ∧ st.decompressor = none ∧
    st.paddingAfterCompressedData = 0 ∧ st.uncompressedDataHasher = hasher
  file : r.fileData.unread = []
  empty : r.decompressedContent.unread = []

theorem ends_fileRecord
    (hs : Sim (o := chunkReaderOptions) (noDecoding D none) r rest ⟨.fileRecord, [], h⟩) :
    ∃ i, Comes (InnerReader.next D) ⟨rest, r⟩ (.ended i) := by
  have htold : Told (o := chunkReaderOptions) (noDecoding D none) (fun out => ∃ i, out = .ended i)
      ⟨.fileRecord, [], h⟩ := by
    refine told_of_turn ?_
    show Tells _ _ _ SpecTurn.eof
    intro r' hnext out hout
    exact ⟨_, hout.unique (InnerReader.shows_ended ⟨0, fun fuel _ => hnext fuel⟩)⟩
  obtain ⟨_, hcomes, i, rfl⟩ := htold.next hs
  exact ⟨i, hcomes⟩

theorem turn_chunkEnd (hr : AtChunkEnd D r hasher) :
    (∃ r', (∀ fuel, r.turn D fuel = .again r') ∧ r'.atEof = false ∧
      ∃ h, Sim (o := chunkReaderOptions) (noDecoding D none) r' [] ⟨.fileRecord, [], h⟩) ∨
    (hasher ≠ none ∧ ∃ r' e, (∀ fuel, r.turn D fuel = .ret r' (some (.error e))) ∧
      AtChunkEnd D r' none) := by
  obtain ⟨st, hst, hd, hpad, hh⟩ := hr.chunk
  obtain ⟨b, hb, hshows, -⟩ := RwBuf.consume_of_le (b := r.fileData) (n := 0) (Nat.zero_le _)
  have hunread : b.unread = [] := by
    rw [hshows.unread, hr.file]
    rfl
  have hturn : ∀ fuel, r.turn D fuel = LinearReader.checkChunkCrc
      { r with
        currentlyReading := .paddingAfterChunk
        fileData := b
        chunkState := some { st with uncompressedDataHasher := none } } st.crc hasher := by
    intro fuel
    rw [LinearReader.turn, hr.state]
    simp only [LinearReader.paddingAfterChunk, hst, LinearReader.consume, hpad, hb, hd, hh, hr.state,
      Nat.not_lt_zero, if_false]
  have hnext : ∃ h, Sim (o := chunkReaderOptions) (noDecoding D none)
      { r with fileData := b, chunkState := none, currentlyReading := .fileRecord } []
      ⟨.fileRecord, [], h⟩ :=
    ⟨b.hasher, hr.options, hr.running, hr.cached, rfl, rfl,
      ⟨by rw [hunread], absorb_nil _⟩, hr.empty⟩
  cases hasher with
  | none => exact .inl ⟨_, fun fuel => (hturn fuel).trans rfl, hr.running, hnext⟩
  | some hs =>
    simp only [LinearReader.checkChunkCrc] at hturn
    by_cases hbad : st.crc ≠ 0 ∧ st.crc ≠ hs.finalize
    · simp only [if_pos hbad, LinearReader.fail] at hturn
      exact .inr ⟨by simp, _, _, hturn, hr.options, hr.running, hr.cached, rfl,
        ⟨_, rfl, hd, hpad, rfl⟩, hunread, hr.empty⟩
    · simp only [if_neg hbad] at hturn
      exact .inl ⟨_, hturn, hr.running, hnext⟩

/-- **Behind the records, the end of the chunk is read to**, also if the checksum does not match. -/
theorem drains_chunkEnd (hr : AtChunkEnd D r hasher) :
    ∃ items, Drains (InnerReader.next D) ⟨[], r⟩ items .finished := by
  have hlast : ∀ {q : LinearReader δ} {hasher}, AtChunkEnd D q hasher →
      (∃ r', (∀ fuel, q.turn D fuel = .again r') ∧ r'.atEof = false ∧
        ∃ h, Sim (o := chunkReaderOptions) (noDecoding D none) r' [] ⟨.fileRecord, [], h⟩) →
      ∃ items, Drains (InnerReader.next D) ⟨[], q⟩ items .finished := by
    rintro q hasher hq ⟨r', hturn, hrun, h, hs⟩
    obtain ⟨i, hended⟩ := ends_fileRecord hs
    exact ⟨[], .ended (InnerReader.comes_of_same
      (fun out => Returns.of_again hq.running hrun (N := 0) fun fuel _ => hturn fuel) (by simp) hended)⟩
  rcases turn_chunkEnd hr with hend | ⟨-, r', e, hturn, hr'⟩
  · exact hlast hr hend
  · obtain ⟨items, hd⟩ : ∃ items, Drains (InnerReader.next D) ⟨[], r'⟩ items .finished := by
      rcases turn_chunkEnd hr' with hend | ⟨hne, -⟩
      · exact hlast hr' hend
      · exact absurd rfl hne
    exact ⟨.error e :: items, .item (InnerReader.comes_of_returns
      (Returns.of_ret hr.running (N := 0) fun fuel _ => hturn fuel) fun _ => rfl) hd⟩

theorem drains_plain_nil
    (hs : Sim (o := chunkReaderOptions) (noDecoding D none) r rest ⟨.plainChunk 0 c, [], h⟩)
    (hpad : c.padding = 0) : ∃ items, Drains (InnerReader.next D) ⟨rest, r⟩ items .finished := by
  obtain ⟨st, ht⟩ : ∃ st, r.InPlain rest _ .chunkRecord 0 c st := hs.phase
  obtain ⟨hunread, rfl⟩ := List.append_eq_nil_iff.mp (show r.fileData.unread ++ rest = [] from ht.ahead.bytes)
  have hturn : ∀ fuel, r.turn D fuel = .again { r with currentlyReading := .paddingAfterChunk } := by
    intro fuel
    rw [LinearReader.turn, ht.state]
    simp only [LinearReader.chunkRecord, ht.chunk, ht.plain, LinearReader.plainChunkRecord,
      ht.remaining, if_true]
  have hend : AtChunkEnd D { r with currentlyReading := .paddingAfterChunk }
      st.uncompressedDataHasher :=
    ⟨hs.options, hs.running, hs.cached, rfl, ⟨st, ht.chunk, ht.plain, ht.padding.trans hpad, rfl⟩,
      hunread, ht.empty⟩
  have hsame : ∀ out, Returns D { r with currentlyReading := .paddingAfterChunk } out →
      Returns D r out :=
    fun out => Returns.of_again hs.running hend.running (N := 0) fun fuel _ => hturn fuel
  obtain ⟨items, hd⟩ := drains_chunkEnd hend
  exact ⟨items, InnerReader.drains_of_same hsame hd⟩

/-! ## The records of a chunk -/

/-- The records go to the end, and `parse_record` returns on each of them. -/
def WholeRecords (data : Bytes) : Prop :=
  ∃ recs, data = frames recs ∧ ∀ p ∈ recs, ¬ (p.1 = op.ATTACHMENT ∧ EndsBeforeCrc p.2)

/-- The record at the front does not end within the bytes. -/
def Short (bytes : Bytes) : Prop :=
  OPCODE_LEN_SIZE ≤ bytes.length →
    bytes.length < OPCODE_LEN_SIZE + (opcodeAndLen (bytes.take OPCODE_LEN_SIZE)).2

/-- The record at the front announces a length that cannot be added to. -/
def Huge (bytes : Bytes) : Prop :=
  OPCODE_LEN_SIZE ≤ bytes.length ∧
    USIZE_MAX < OPCODE_LEN_SIZE + (opcodeAndLen (bytes.take OPCODE_LEN_SIZE)).2

theorem frame_append_inj {opcode' : UInt8} {body' bytes' : Bytes}
    (hlen : (frame opcode body ++ bytes).length ≤ USIZE_MAX)
    (h : frame opcode body ++ bytes = frame opcode' body' ++ bytes') :
    opcode = opcode' ∧ body = body' ∧ bytes = bytes' := by
  have hlen' : (frame opcode' body' ++ bytes').length ≤ USIZE_MAX := h ▸ hlen
  rw [List.length_append, length_frame] at hlen hlen'
  have hfront := congrArg (fun bs => opcodeAndLen (bs.take OPCODE_LEN_SIZE)) h
  simp only [opcodeAndLen_frame (show body.length ≤ USIZE_MAX by omega),
    opcodeAndLen_frame (show body'.length ≤ USIZE_MAX by omega), Prod.mk.injEq] at hfront
  obtain ⟨rfl, hsame⟩ := hfront
  obtain ⟨hframe, rfl⟩ := List.append_inj h (by rw [length_frame, length_frame, hsame])
  simp only [frame, hsame, List.cons.injEq, true_and] at hframe
  exact ⟨rfl, (List.append_inj hframe rfl).2, rfl⟩

theorem not_short_frame
    (hlen : (frame opcode body ++ bytes).length ≤ USIZE_MAX) : ¬ Short (frame opcode body ++ bytes) := by
  intro h
  unfold Short at h
  rw [List.length_append, length_frame] at hlen
  rw [opcodeAndLen_frame (by omega), List.length_append, length_frame] at h
  simp only [OPCODE_LEN_SIZE] at h
  omega

theorem wholeRecords_append (hlen : (frame opcode body ++ bytes).length ≤ USIZE_MAX) :
    WholeRecords (frame opcode body ++ bytes) ↔
      ¬ (opcode = op.ATTACHMENT ∧ EndsBeforeCrc body) ∧ WholeRecords bytes := by
  constructor
  · rintro ⟨_ | ⟨⟨opcode', body'⟩, recs⟩, heq, hall⟩
    · have hzero := congrArg List.length heq
      rw [List.length_append, length_frame] at hzero
      simp at hzero
    · rw [frames_cons] at heq
      obtain ⟨rfl, rfl, rfl⟩ := frame_append_inj hlen heq
      exact ⟨hall _ (List.mem_cons_self ..), recs, rfl, fun p hp => hall p (List.mem_cons_of_mem _ hp)⟩
  · rintro ⟨hfront, recs, rfl, hall⟩
    refine ⟨(opcode, body) :: recs, by rw [frames_cons], ?_⟩
    rw [List.forall_mem_cons]
    exact ⟨hfront, hall⟩

theorem not_wholeRecords_of_short (hne : bytes ≠ []) (hlen : bytes.length ≤ USIZE_MAX)
    (hshort : Short bytes) : ¬ WholeRecords bytes := by
  rintro ⟨_ | ⟨⟨opcode, body⟩, recs⟩, rfl, -⟩
  · exact hne rfl
  · rw [frames_cons] at hshort hlen
    exact not_short_frame hlen hshort

/-- **The turn of a chunk that has bytes left.** -/
theorem plainChunk_cases (bytes : Bytes) (hne : bytes ≠ []) (hlen : bytes.length ≤ USIZE_MAX)
    (c : OpenChunk) (h : Option Hasher) :
    (Short bytes ∧ ¬ Huge bytes ∧
      Spec.turn D chunkReaderOptions ⟨.plainChunk bytes.length c, bytes, h⟩ = .eof) ∨
    (Short bytes ∧ Huge bytes ∧
      Spec.turn D chunkReaderOptions ⟨.plainChunk bytes.length c, bytes, h⟩ = .panic) ∨
    ∃ opcode body bytes' hasher h', bytes = frame opcode body ++ bytes' ∧
      Spec.turn D chunkReaderOptions ⟨.plainChunk bytes.length c, bytes, h⟩ =
        .record opcode body ⟨.plainChunk bytes'.length { c with hasher }, bytes', h'⟩ := by
  have hpos := List.length_pos_iff.mpr hne
  rcases hol : opcodeAndLen (bytes.take OPCODE_LEN_SIZE) with ⟨opcode, len⟩
  simp only [Short, Huge, Spec.turn, Spec.plainChunk, Spec.need, if_neg (Nat.pos_iff_ne_zero.mp hpos), hol,
    show chunkReaderOptions.recordLengthLimit = none from rfl, checkLen_none]
  by_cases h9 : bytes.length < OPCODE_LEN_SIZE
  · exact .inl ⟨fun hle => absurd h9 (by omega), fun hle => absurd h9 (by omega), if_pos h9⟩
  · rw [if_neg h9]
    by_cases hfits : bytes.length < OPCODE_LEN_SIZE + len
    · by_cases hmax : OPCODE_LEN_SIZE + len > USIZE_MAX
      · exact .inr (.inl ⟨fun _ => hfits, ⟨by omega, hmax⟩, if_pos hmax⟩)
      · exact .inl ⟨fun _ => hfits, fun hhuge => hmax hhuge.2, by rw [if_neg hmax, if_pos hfits]⟩
    · rw [if_neg (by omega), if_neg hfits, if_neg (by omega)]
      have hframe := frame_of_opcodeAndLen (by omega) hol (by omega)
      refine .inr (.inr ⟨opcode, (bytes.take (OPCODE_LEN_SIZE + len)).drop OPCODE_LEN_SIZE,
        bytes.drop (OPCODE_LEN_SIZE + len), Spec.absorb c.hasher (bytes.take (OPCODE_LEN_SIZE + len)),
        Spec.absorb h (bytes.take (OPCODE_LEN_SIZE + len)), ?_, ?_⟩)
      · rw [← hframe, List.take_append_drop]
      · rw [Spec.skip, List.length_drop]

/-- **A chunk that is not compressed is read to its end exactly if its records go to its end**, and
`parse_record` returns on them. -/
theorem plain_ends_iff {r : LinearReader δ} {rest : Bytes} {c : OpenChunk} {h : Option Hasher}
    (hpad : c.padding = 0) (hlen : bytes.length ≤ USIZE_MAX)
    (hs : Sim (o := chunkReaderOptions) (noDecoding D none) r rest
      ⟨.plainChunk bytes.length c, bytes, h⟩) :
    (∃ items, Drains (InnerReader.next D) ⟨rest, r⟩ items .finished) ↔ WholeRecords bytes := by
  induction hn : bytes.length using Nat.strong_induction_on generalizing bytes r rest c h with
  | _ n ih =>
    subst hn
    by_cases hnil : bytes = []
    · subst hnil
      exact iff_of_true (drains_plain_nil hs hpad) ⟨[], rfl, by simp⟩
    · rcases plainChunk_cases (D := D) bytes hnil hlen c h with
        ⟨hshort, -, hturn⟩ | ⟨hshort, -, hturn⟩ | ⟨opcode, body, bytes', hasher, h', rfl, hturn⟩
      · -- an input that ends too soon
        have hopen : Spec.atEof chunkReaderOptions ⟨.plainChunk bytes.length c, bytes, h⟩ ≠ .finished := by
          rw [Spec.atEof, if_neg (by simp [Phase.inChunk])]
          simp
        refine iff_of_false ?_ (not_wholeRecords_of_short hnil hlen hshort)
        rintro ⟨items, hd⟩
        exact not_drains_of_eof hturn hopen hs items hd
      · -- the length of a record overflows
        refine iff_of_false ?_ (not_wholeRecords_of_short hnil hlen hshort)
        rintro ⟨items, hd⟩
        obtain ⟨_, hcomes, rfl⟩ := Told.next (told_of_turn (Q := fun out => out = .panic)
          (by rw [hturn]; rfl)) hs
        cases hd with
        | item hc _ | ended hc => cases hc.unique hcomes
      · obtain ⟨_, hcomes, r', rest', hs', rfl⟩ := Told.next (told_of_turn
          (Q := fun out => ∃ r' rest', Sim (o := chunkReaderOptions) (noDecoding D none) r' rest'
            ⟨.plainChunk bytes'.length { c with hasher }, bytes', h'⟩ ∧
              out = .item (.ok (opcode, body)) ⟨rest', r'⟩)
          (by rw [hturn]; exact fun r' rest' hs' => ⟨r', rest', hs', rfl⟩)) hs
        have hless : bytes'.length < (frame opcode body ++ bytes').length := by
          rw [List.length_append, length_frame]
          omega
        have hrest := ih bytes'.length hless (c := { c with hasher }) hpad (by omega) hs' rfl
        rw [wholeRecords_append hlen, ← hrest, ← parseRecord_panics_iff]
        unfold parsedNext parsedItem at hcomes
        rcases hparsed : parseRecord opcode body with record | e | _ <;> simp only [hparsed] at hcomes
        case panic =>
          refine iff_of_false ?_ (by simp)
          rintro ⟨items, hd⟩
          cases hd with
          | item hc _ | ended hc => cases hc.unique hcomes
        all_goals
          refine ⟨?_, ?_⟩
          · rintro ⟨items, hd⟩
            cases hd with
            | item hc hd =>
              cases hc.unique hcomes
              exact ⟨by simp, _, hd⟩
            | ended hc => cases hc.unique hcomes
          · rintro ⟨-, items, hd⟩
            exact ⟨_, .item hcomes hd⟩

/-! ## The chunk of a record -/

theorem size_of_parse_chunk {data : Bytes}
    (h : parseRecord opcode body = .ok (.chunk header data)) :
    header.compressedSize.toNat = data.length := by
  obtain rfl : op.CHUNK = opcode := parse_opcode h
  rw [show parseRecord op.CHUNK body = parseChunk body from rfl] at h
  unfold parseChunk at h
  split at h
  · cases h
  · split at h
    · cases h
    · cases h
      rw [List.length_take]
      omega

theorem sim_forChunk {data : Bytes} {reader : InnerReader δ} (hplain : header.compression = "")
    (hsize : header.compressedSize.toNat = data.length)
    (hreader : chunkReader D header data = .ok reader) :
    reader.buf = data ∧ ∃ c h, c.padding = 0 ∧
      Sim (o := chunkReaderOptions) (noDecoding D none) reader.reader data
        ⟨.plainChunk data.length c, data, h⟩ := by
  simp only [chunkReader, LinearReader.forChunk, getDecompressor, hplain] at hreader
  cases hreader
  refine ⟨rfl, ⟨header.uncompressedCrc, some Hasher.new, 0⟩, none, rfl, rfl, rfl,
    (fun _ _ h => nomatch h), ?_⟩
  exact ⟨_, rfl, rfl, rfl, hsize, rfl, rfl, rfl, ⟨rfl, absorb_nil _⟩, rfl⟩

theorem exists_chunkReader (hplain : header.compression = "") (data : Bytes) :
    ∃ reader, chunkReader D header data = .ok reader := by
  simp [chunkReader, LinearReader.forChunk, getDecompressor, hplain, Except.map]

end
end Mcap

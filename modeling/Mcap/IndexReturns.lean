import Mcap.IndexReads
import Mcap.InsertErrors

/-! # When the reads by an index return

The functions that read by an index return, a value or an error, on all indexes but those of a few kinds:
sums that overflow, a chunk that is said to be shorter than the front of its record, and records that
their readers panic on.  `indexed_reads_return` names the kinds for each function.

What a reader comes to is read off its states (`Spec.Meets`): `readsOn_iff` is the lemma for one call, and
`seekLoop_returns_iff` the one for the loop of `seek_message`, by induction on what is left of the chunk.
For the calls on an `IndexedReader` there is the invariant `Good`, which every call keeps.
-/
namespace Mcap

/-- A computation returns. -/
def Progress.Halts {α : Type} (x : Nat → Progress α) : Prop := ∃ a, Progress.Settles x (.done a)

open Progress (Halts)

/-! ## The chunk of an index -/

/-- The place of a chunk: its end is a 64-bit number, and if the file has it, it is behind the front of the
record. -/
def ChunkInRange (mcap : Bytes) (index : ChunkIndex) : Prop :=
  index.chunkStartOffset.toNat + index.chunkLength.toNat < 2 ^ 64 ∧
    (index.chunkStartOffset.toNat + index.chunkLength.toNat ≤ mcap.length → 9 ≤ index.chunkLength.toNat)

section
variable {mcap : Bytes} {index : ChunkIndex}

theorem chunkSlice_returns_iff (hlen : mcap.length ≤ ISIZE_MAX) :
    chunkSlice mcap index ≠ .panic ↔ ChunkInRange mcap index := by
  unfold chunkSlice ChunkInRange
  by_cases hsum : index.chunkStartOffset.toNat + index.chunkLength.toNat < 2 ^ 64
  · rw [checkedAdd, if_pos hsum]
    simp only [Res.bind, hsum, true_and]
    by_cases hfile : mcap.length < index.chunkStartOffset.toNat + index.chunkLength.toNat
    · rw [if_pos hfile]
      exact iff_of_true (by simp) fun h => absurd h (by omega)
    · have hstart : checkedAdd index.chunkStartOffset.toNat 9 = .ok (index.chunkStartOffset.toNat + 9) :=
        if_pos (by simp only [ISIZE_MAX] at hlen; omega)
      rw [if_neg hfile, hstart]
      show sliceOf mcap _ _ ≠ .panic ↔ _
      unfold sliceOf
      by_cases hlength : 9 ≤ index.chunkLength.toNat
      · rw [if_pos (by omega)]
        exact iff_of_true (by simp) fun _ => hlength
      · rw [if_neg (by omega)]
        exact iff_of_false (by simp) fun h => hlength (h (by omega))
  · rw [checkedAdd, if_neg hsum]
    exact iff_of_false (by simp [Res.bind]) fun h => hsum h.1

theorem indexedChunk_returns_iff (hlen : mcap.length ≤ ISIZE_MAX) :
    indexedChunk mcap index ≠ .panic ↔ ChunkInRange mcap index := by
  rw [← chunkSlice_returns_iff hlen]
  unfold indexedChunk
  rcases chunkSlice mcap index with body | e | _
  · have hreturns : parseRecord op.CHUNK body ≠ .panic := by
      rw [Ne, parseRecord_panics_iff]
      exact fun h => absurd h.1 (by decide)
    simp only [Res.bind, ne_eq, reduceCtorEq, not_false_eq_true, iff_true]
    split
    · simp
    · simp
    · simp
    · exact absurd ‹_› hreturns
  · simp [Res.bind]
  · simp [Res.bind]

theorem streamChunk_returns_iff {δ : Type} (D : Decompressor δ) (hlen : mcap.length ≤ ISIZE_MAX) :
    streamChunk D mcap index ≠ .panic ↔ ChunkInRange mcap index := by
  rw [← indexedChunk_returns_iff hlen]
  unfold streamChunk
  rcases indexedChunk mcap index with ⟨header, data⟩ | e | _
  · simp only [Res.bind]
    rcases chunkReader D header data with e | reader <;> simp
  · simp [Res.bind]
  · simp [Res.bind]

theorem size_of_indexedChunk {header : ChunkHeader} {data : Bytes}
    (h : indexedChunk mcap index = .ok (header, data)) : header.compressedSize.toNat = data.length := by
  obtain ⟨body, -, hbody⟩ := Res.bind_eq_ok.mp h
  split at hbody
  case h_1 hparsed =>
    cases hbody
    exact size_of_parse_chunk hparsed
  all_goals cases hbody

end

/-! ## One call of a reader -/

section
variable {δ : Type} {D : Decompressor δ} {o : LinearReaderOptions}
  {Δ : Decoding D o.recordLengthLimit} {s : Spec} {r : LinearReader δ} {rest : Bytes}

variable (D) in
/-- A call of `next` returns. -/
def NextReturns (i : InnerReader δ) : Prop :=
  ∃ out, Comes (InnerReader.next D) i out ∧ out ≠ .panic ∧ out ≠ .spin

variable (D) in
/-- A reader with nothing but `s` ahead returns from `next`: it does not come to a record that
`parse_record` panics on, nor to one that it panics on itself.  `packed` is for the compressed chunks. -/
def Spec.ReadsOn (o : LinearReaderOptions) (s : Spec) (packed : Prop) : Prop :=
  ∀ t, s.Meets D o t →
    match t.turn D o with
    | .panic => False
    | .record opcode data _ => ¬ (opcode = op.ATTACHMENT ∧ EndsBeforeCrc data)
    | .packed .. => packed
    | _ => True

theorem nextReturns_of_told {Q : Next (InnerReader δ) (Except McapError (UInt8 × Bytes)) → Prop}
    (ht : Told Δ Q s) (hs : Sim Δ r rest s) (hQ : ∀ out, Q out → parsedNext out ≠ .panic ∧ out ≠ .spin) :
    NextReturns D ⟨rest, r⟩ := by
  obtain ⟨out, hout, hq⟩ := ht.next hs
  exact ⟨_, hout, (hQ out hq).1, mt parsedNext_eq_spin.mp (hQ out hq).2⟩

theorem parsedItem_eq_panic {S : Type} {opcode : UInt8} {data : Bytes} {i : S} :
    parsedItem opcode data i = .panic ↔ opcode = op.ATTACHMENT ∧ EndsBeforeCrc data := by
  rw [← parseRecord_panics_iff]
  unfold parsedItem
  rcases parseRecord opcode data with record | e | _ <;> simp

/-- **A call returns** as `ReadsOn` says. -/
theorem readsOn_iff (hs : Sim Δ r rest s) {packed : Prop}
    (hpacked : ∀ t name size c n k, s.Meets D o t → t.turn D o = .packed name size c n k →
      (packed ↔ NextReturns D ⟨rest, r⟩)) : NextReturns D ⟨rest, r⟩ ↔ s.ReadsOn D o packed := by
  obtain ⟨t, hmeets⟩ := s.exists_meets D o
  constructor
  · rintro ⟨x, hx, hpanic, hspin⟩ t hmeets
    have hlast : ∀ {Q : Next (InnerReader δ) (Except McapError (UInt8 × Bytes)) → Prop},
        Tells Δ Q t (t.turn D o) → ∃ out, parsedNext out = x ∧ Q out := by
      intro Q hQ
      obtain ⟨out, hout, hq⟩ := (told_of_meets hmeets hQ).next hs
      exact ⟨out, hout.unique hx, hq⟩
    split
    · rename_i hturn
      obtain ⟨_, rfl, rfl⟩ := hlast (Q := fun out => out = .panic) (by rw [hturn]; rfl)
      exact hpanic rfl
    · rename_i opcode data s' hturn
      obtain ⟨_, rfl, i, rfl⟩ := hlast (Q := fun out => ∃ i, out = .item (.ok (opcode, data)) i)
        (by rw [hturn]; exact fun r rest _ => ⟨_, rfl⟩)
      exact mt parsedItem_eq_panic.mpr hpanic
    · rename_i hturn
      exact (hpacked t _ _ _ _ _ hmeets hturn).mpr ⟨x, hx, hpanic, hspin⟩
    · trivial
  · intro h
    have ht := h t hmeets
    have hreturns : ∀ {Q : Next (InnerReader δ) (Except McapError (UInt8 × Bytes)) → Prop},
        Tells Δ Q t (t.turn D o) → (∀ out, Q out → parsedNext out ≠ .panic ∧ out ≠ .spin) →
          NextReturns D ⟨rest, r⟩ := fun hQ => nextReturns_of_told (told_of_meets hmeets hQ) hs
    cases hturn : t.turn D o with
    | again s' => exact absurd hturn hmeets.stops
    | record opcode data s' =>
      rw [hturn] at ht
      refine hreturns (Q := fun out => ∃ i, out = .item (.ok (opcode, data)) i)
        (by rw [hturn]; exact fun r rest _ => ⟨_, rfl⟩) ?_
      rintro _ ⟨i, rfl⟩
      exact ⟨mt parsedItem_eq_panic.mp ht, by simp⟩
    | fail e =>
      refine hreturns (Q := fun out => ∃ i, out = .item (.error e) i)
        (by rw [hturn]; exact fun i => ⟨i, rfl⟩) ?_
      rintro _ ⟨i, rfl⟩
      exact ⟨by simp [parsedNext], by simp⟩
    | done =>
      refine hreturns (Q := fun out => ∃ i, out = .ended i) (by rw [hturn]; exact fun i => ⟨i, rfl⟩) ?_
      rintro _ ⟨i, rfl⟩
      exact ⟨by simp [parsedNext], by simp⟩
    | panic =>
      rw [hturn] at ht
      exact ht.elim
    | eof =>
      refine hreturns (by rw [hturn]; exact tells_eof) ?_
      rintro _ (⟨i, rfl⟩ | ⟨e, i, rfl⟩) <;> exact ⟨by simp [parsedNext], by simp⟩
    | packed name size c n k =>
      rw [hturn] at ht
      exact (hpacked t _ _ _ _ _ hmeets hturn).mp ht

theorem halts_next_iff {β : Type} {k : Next (InnerReader δ) (Except McapError Record) → Progress β}
    {i : InnerReader δ} (hpanic : k .panic = .panic) (hspin : k .spin = .spin)
    (hk : ∀ out, out ≠ .panic → out ≠ .spin → ∃ b, k out = .done b) :
    Halts (fun fuel => k (i.next D fuel)) ↔ NextReturns D i := by
  constructor
  · rintro ⟨b, N, hN⟩
    have hlast : k (i.next D N) = .done b := hN N (Nat.le_refl N)
    have hne : i.next D N ≠ .spin := fun h => by
      rw [h, hspin] at hlast
      cases hlast
    refine ⟨_, InnerReader.rising_next.comes rfl hne, fun h => ?_, hne⟩
    rw [h, hpanic] at hlast
    cases hlast
  · rintro ⟨out, ⟨N, hN⟩, hne, hne'⟩
    obtain ⟨b, hb⟩ := hk out hne hne'
    exact ⟨b, N, fun fuel hfuel => by show k (i.next D fuel) = _; rw [hN fuel hfuel, hb]⟩

/-! ## Message indexes -/

variable (D) in
/-- A new reader of the bytes returns from `next`. -/
def SliceReadsOn (buf : Bytes) : Prop :=
  (Spec.init (sansMagicOptions buf.length) buf).ReadsOn D (sansMagicOptions buf.length)
    (NextReturns D (sansMagic buf))

theorem sliceReadsOn_iff (buf : Bytes) : NextReturns D (sansMagic buf) ↔ SliceReadsOn D buf :=
  readsOn_iff (sim_init (noDecoding D (sansMagicOptions buf.length).recordLengthLimit) buf)
    fun _ _ _ _ _ _ _ _ => .rfl

variable (D) in
/-- The offset of a message index: there is a number behind it, and what is there can be read. -/
def EntryReturns (mcap : Bytes) (offset : UInt64) : Prop :=
  offset.toNat + MIN_MESSAGE_INDEX_BYTES < 2 ^ 64 ∧
    (offset.toNat + MIN_MESSAGE_INDEX_BYTES ≤ mcap.length → SliceReadsOn D (mcap.drop offset.toNat))

theorem readMessageIndex_returns_iff (mcap : Bytes) (channelId : UInt16) (offset : UInt64) :
    Halts (readMessageIndex D · mcap channelId offset) ↔ EntryReturns D mcap offset := by
  unfold readMessageIndex EntryReturns
  rw [← sliceReadsOn_iff]
  by_cases hover : 2 ^ 64 ≤ offset.toNat + MIN_MESSAGE_INDEX_BYTES
  · simp only [if_pos hover]
    refine iff_of_false ?_ fun h => absurd h.1 (by omega)
    rintro ⟨_, hb⟩
    cases Progress.settles_const_iff.mp hb
  · simp only [if_neg hover]
    by_cases hshort : mcap.length < offset.toNat + MIN_MESSAGE_INDEX_BYTES
    · simp only [if_pos hshort]
      exact iff_of_true ⟨_, .const _⟩ ⟨by omega, fun h => absurd h (by omega)⟩
    · simp only [if_neg hshort]
      refine (halts_next_iff (k := indexOfItem channelId) rfl rfl ?_).trans
        ⟨fun h => ⟨by omega, fun _ => h⟩, fun h => h.2 (by omega)⟩
      rintro (⟨e | record, i⟩ | i | _ | _) hpanic hspin
      · exact ⟨_, rfl⟩
      · cases record <;> exact ⟨_, rfl⟩
      · exact ⟨_, rfl⟩
      · exact absurd rfl hpanic
      · exact absurd rfl hspin

theorem rising_readMessageIndex (mcap : Bytes) (channelId : UInt16) (offset : UInt64) :
    Progress.Rising (readMessageIndex D · mcap channelId offset) := by
  intro fuel fuel' hle hne
  replace hne : readMessageIndex D fuel mcap channelId offset ≠ .spin := hne
  show readMessageIndex D fuel' mcap channelId offset = readMessageIndex D fuel mcap channelId offset
  unfold readMessageIndex at hne ⊢
  split
  · rfl
  · rename_i hover
    rw [if_neg hover] at hne
    split
    · rfl
    · rename_i hshort
      rw [if_neg hshort] at hne
      have hspin : (sansMagic (mcap.drop offset.toNat)).next D fuel ≠ .spin := by
        intro h
        rw [h] at hne
        exact hne rfl
      rw [InnerReader.rising_next fuel fuel' _ hle hspin]

/-- **The loop over the message indexes** returns if each of them can be read, as long as those before it
are there. -/
theorem collectIndexes_returns_iff (summary : Summary) (mcap : Bytes) (entries : List (UInt16 × UInt64))
    (found : ChunkMessages) : Halts (collectIndexes D · summary mcap entries found) ↔
      ∀ before entry after indexes, entries = before ++ entry :: after →
        Progress.Settles (collectIndexes D · summary mcap before found) (.done (.ok indexes)) →
          EntryReturns D mcap entry.2 := by
  induction entries generalizing found with
  | nil => exact iff_of_true ⟨_, .const _⟩ fun before _ _ _ h => by simp at h
  | cons entry entries ih =>
    obtain ⟨channelId, offset⟩ := entry
    have hrising := rising_readMessageIndex (D := D) mcap channelId offset
    constructor
    · rintro ⟨b, hb⟩ before entry after indexes hsplit hbefore
      obtain ⟨a, ha, hrest⟩ := (Progress.settles_bind_iff hrising).mp hb
      cases before with
      | nil =>
        cases hsplit
        exact (readMessageIndex_returns_iff mcap channelId offset).mp ⟨a, ha⟩
      | cons head before =>
        obtain ⟨rfl, rfl⟩ := List.cons.inj hsplit
        obtain ⟨a', ha', hbefore⟩ := (Progress.settles_bind_iff hrising).mp hbefore
        cases ha.unique ha'
        rcases a with e | index
        · cases Progress.settles_const_iff.mp hbefore
        · dsimp only at hrest hbefore
          rcases haddd : addIndex summary found index with e | found' <;>
            simp only [haddd] at hrest hbefore
          · cases Progress.settles_const_iff.mp hbefore
          · exact (ih found').mp ⟨b, hrest⟩ before entry after indexes rfl hbefore
    · intro h
      obtain ⟨a, ha⟩ := (readMessageIndex_returns_iff mcap channelId offset).mpr
        (h [] (channelId, offset) entries found rfl (.const _))
      have hall : ∀ {found'}, (∃ index, a = .ok index ∧ addIndex summary found index = .ok found') →
          Halts (collectIndexes D · summary mcap entries found') := by
        rintro found' ⟨index, rfl, hadd⟩
        refine (ih found').mpr fun before entry after indexes hsplit hbefore => ?_
        refine h ((channelId, offset) :: before) entry after indexes (by rw [hsplit]; rfl)
          ((Progress.settles_bind_iff hrising).mpr ⟨_, ha, ?_⟩)
        simp only [hadd]
        exact hbefore
      rcases a with e | index
      · exact ⟨_, ha.bind (.const _)⟩
      · rcases hadd : addIndex summary found index with e | found'
        · refine ⟨.error e, ha.bind ?_⟩
          simp only [hadd]
          exact .const _
        · obtain ⟨b, hb⟩ := hall ⟨index, rfl, hadd⟩
          refine ⟨b, ha.bind ?_⟩
          simp only [hadd]
          exact hb

/-! ## The only record of a slice -/

variable (D) in
/-- The second call on a slice whose first record is wanted returns. -/
def SecondReturns {α : Type} (pick : Record → Option α) (buf : Bytes) : Prop :=
  ∀ record i, Comes (InnerReader.next D) (sansMagic buf) (.item (.ok record) i) → pick record ≠ none →
    NextReturns D i

theorem onlyRecord_returns_iff {α : Type} (pick : Record → Option α) (buf : Bytes) :
    (∃ x, Eventually (onlyRecord D · pick buf) x ∧ x ≠ .panic) ↔
      NextReturns D (sansMagic buf) ∧ SecondReturns D pick buf := by
  constructor
  · rintro ⟨x, ⟨N, hN⟩, hx⟩
    have hlast : onlyRecord D N pick buf = some x := hN N (Nat.le_refl N)
    unfold onlyRecord at hlast
    have hne : (sansMagic buf).next D N ≠ .spin := fun h => by
      rw [h] at hlast
      cases hlast
    have hcomes := InnerReader.rising_next.comes rfl hne
    refine ⟨⟨_, hcomes, fun h => ?_, hne⟩, fun record i hi hpick => ?_⟩
    · rw [h] at hlast
      exact hx (Option.some.inj hlast).symm
    · obtain ⟨a, ha⟩ := Option.ne_none_iff_exists'.mp hpick
      rw [hcomes.unique hi] at hlast
      simp only [ha] at hlast
      have hne' : i.next D N ≠ .spin := fun h => by
        rw [h] at hlast
        cases hlast
      refine ⟨_, InnerReader.rising_next.comes rfl hne', fun h => ?_, hne'⟩
      rw [h] at hlast
      exact hx (Option.some.inj hlast).symm
  · rintro ⟨⟨out, hout, hpanic, hspin⟩, hsecond⟩
    have hdone : ∀ x : Res McapError α, (∀ fuel, (sansMagic buf).next D fuel = out →
        onlyRecord D fuel pick buf = some x) → Eventually (onlyRecord D · pick buf) x := by
      intro x hx
      obtain ⟨N, hN⟩ := hout
      exact ⟨N, fun fuel hfuel => hx fuel (hN fuel hfuel)⟩
    rcases out with ⟨e | record, i⟩ | i | _ | _
    · exact ⟨.err e, hdone _ fun fuel h => by rw [onlyRecord, h], by simp⟩
    · rcases hpick : pick record with _ | a
      · exact ⟨.err .badIndex, hdone _ fun fuel h => by rw [onlyRecord, h]; simp only [hpick], by simp⟩
      · obtain ⟨out', ⟨M, hM⟩, hpanic', hspin'⟩ := hsecond record i hout (by rw [hpick]; simp)
        obtain ⟨N, hN⟩ := hout
        have hboth : ∀ x : Res McapError α, (∀ fuel,
            (sansMagic buf).next D fuel = .item (.ok record) i → i.next D fuel = out' →
              onlyRecord D fuel pick buf = some x) → Eventually (onlyRecord D · pick buf) x :=
          fun x hx => ⟨max N M, fun fuel hfuel =>
            hx fuel (hN fuel (by omega)) (hM fuel (by omega))⟩
        rcases out' with ⟨item, i'⟩ | i' | _ | _
        · exact ⟨.err .badIndex, hboth _ fun fuel h h' => by
            rw [onlyRecord, h]
            simp only [hpick, h'], by simp⟩
        · exact ⟨.ok a, hboth _ fun fuel h h' => by
            rw [onlyRecord, h]
            simp only [hpick, h'], by simp⟩
        · exact absurd rfl hpanic'
        · exact absurd rfl hspin'
    · exact ⟨.err .badIndex, hdone _ fun fuel h => by rw [onlyRecord, h], by simp⟩
    · exact absurd rfl hpanic
    · exact absurd rfl hspin

theorem told_slice {buf : Bytes} {t : Spec}
    {Q : Next (InnerReader δ) (Except McapError (UInt8 × Bytes)) → Prop}
    (hmeets : (Spec.init (sansMagicOptions buf.length) buf).Meets D (sansMagicOptions buf.length) t)
    (hQ : Tells (noDecoding D (sansMagicOptions buf.length).recordLengthLimit) Q t
      (t.turn D (sansMagicOptions buf.length))) :
    ∃ out, Comes (InnerReader.next D) (sansMagic buf) (parsedNext out) ∧ Q out :=
  (told_of_meets hmeets hQ).next (sim_init _ buf)

variable (D) in
/-- What is read of a slice with one record, and behind it: the first call returns, and if its record is
wanted, the second. -/
def OnlyReturns {α : Type} (pick : Record → Option α) (buf : Bytes) : Prop :=
  SliceReadsOn D buf ∧
    ∀ t, (Spec.init (sansMagicOptions buf.length) buf).Meets D (sansMagicOptions buf.length) t →
      match t.turn D (sansMagicOptions buf.length) with
      | .record opcode data s => ∀ record, parseRecord opcode data = .ok record → pick record ≠ none →
          s.ReadsOn D (sansMagicOptions buf.length) (SecondReturns D pick buf)
      | .packed .. => SecondReturns D pick buf
      | _ => True

theorem secondReturns_iff {α : Type} {pick : Record → Option α} {buf data : Bytes} {opcode : UInt8}
    {t s : Spec}
    (hmeets : (Spec.init (sansMagicOptions buf.length) buf).Meets D (sansMagicOptions buf.length) t)
    (hturn : t.turn D (sansMagicOptions buf.length) = .record opcode data s) :
    SecondReturns D pick buf ↔ ∀ record, parseRecord opcode data = .ok record → pick record ≠ none →
      s.ReadsOn D (sansMagicOptions buf.length) (SecondReturns D pick buf) := by
  obtain ⟨_, hcomes, r', rest', hs', rfl⟩ := told_slice (D := D)
    (Q := fun out => ∃ r rest, Sim (o := sansMagicOptions buf.length)
      (noDecoding D (sansMagicOptions buf.length).recordLengthLimit) r rest s ∧
        out = .item (.ok (opcode, data)) ⟨rest, r⟩) hmeets
    (by rw [hturn]; exact fun r rest hs => ⟨r, rest, hs, rfl⟩)
  have hitem : ∀ {record}, parseRecord opcode data = .ok record →
      Comes (InnerReader.next D) (sansMagic buf) (.item (.ok record) ⟨rest', r'⟩) := by
    intro record hparsed
    rwa [parsedNext, parsedItem, hparsed] at hcomes
  have hof : ∀ {record i}, Comes (InnerReader.next D) (sansMagic buf) (.item (.ok record) i) →
      parseRecord opcode data = .ok record ∧ i = ⟨rest', r'⟩ := by
    intro record i hi
    have heq := hi.unique hcomes
    rw [parsedNext, parsedItem] at heq
    rcases hparsed : parseRecord opcode data with record' | e | _ <;> rw [hparsed] at heq <;> cases heq
    exact ⟨rfl, rfl⟩
  have hcall : ∀ {record}, parseRecord opcode data = .ok record → pick record ≠ none →
      (NextReturns D ⟨rest', r'⟩ ↔
        s.ReadsOn D (sansMagicOptions buf.length) (SecondReturns D pick buf)) := by
    intro record hparsed hpick
    refine readsOn_iff hs' fun _ _ _ _ _ _ _ _ =>
      ⟨fun h => h record _ (hitem hparsed) hpick, fun h record' i hi _ => ?_⟩
    rw [(hof hi).2]
    exact h
  constructor
  · exact fun h record hparsed hpick =>
      (hcall hparsed hpick).mp (h record _ (hitem hparsed) hpick)
  · intro h record i hi hpick
    obtain ⟨hparsed, rfl⟩ := hof hi
    exact (hcall hparsed hpick).mpr (h record hparsed hpick)

/-- **The only record of a slice** is read as `OnlyReturns` says. -/
theorem onlyReturns_iff {α : Type} (pick : Record → Option α) (buf : Bytes) :
    (∃ x, Eventually (onlyRecord D · pick buf) x ∧ x ≠ .panic) ↔ OnlyReturns D pick buf := by
  rw [onlyRecord_returns_iff, sliceReadsOn_iff]
  refine and_congr_right fun hfirst => ⟨fun h t hmeets => ?_, fun h => ?_⟩
  · split
    · rename_i hturn
      exact (secondReturns_iff hmeets hturn).mp h
    · exact h
    · trivial
  · obtain ⟨t, hmeets⟩ := (Spec.init (sansMagicOptions buf.length) buf).exists_meets D
      (sansMagicOptions buf.length)
    have ht := h t hmeets
    have hno : ∀ {Q : Next (InnerReader δ) (Except McapError (UInt8 × Bytes)) → Prop},
        Tells (noDecoding D (sansMagicOptions buf.length).recordLengthLimit) Q t
          (t.turn D (sansMagicOptions buf.length)) →
        (∀ out record i, Q out → parsedNext out ≠ .item (.ok record) i) → SecondReturns D pick buf := by
      intro Q hQ hne record i hi _
      obtain ⟨out, hout, hq⟩ := told_slice hmeets hQ
      exact absurd (hout.unique hi) (hne out record i hq)
    cases hturn : t.turn D (sansMagicOptions buf.length) with
    | again s' => exact absurd hturn hmeets.stops
    | record opcode data s' =>
      rw [hturn] at ht
      exact (secondReturns_iff hmeets hturn).mpr ht
    | fail e =>
      refine hno (Q := fun out => ∃ i, out = .item (.error e) i)
        (by rw [hturn]; exact fun i => ⟨i, rfl⟩) ?_
      rintro _ record i ⟨_, rfl⟩
      simp [parsedNext]
    | done =>
      refine hno (Q := fun out => ∃ i, out = .ended i) (by rw [hturn]; exact fun i => ⟨i, rfl⟩) ?_
      rintro _ record i ⟨_, rfl⟩
      simp [parsedNext]
    | panic =>
      refine hno (Q := fun out => out = .panic) (by rw [hturn]; rfl) ?_
      rintro _ record i rfl
      simp [parsedNext]
    | eof =>
      refine hno (by rw [hturn]; exact tells_eof) ?_
      rintro _ record i (⟨_, rfl⟩ | ⟨e, _, rfl⟩) <;> simp [parsedNext]
    | packed name size c n k =>
      rw [hturn] at ht
      exact ht

variable (D) in
/-- The place of a record of its own, and what is there. -/
def PlaceReturns {α : Type} (pick : Record → Option α) (mcap : Bytes) (offset length : UInt64) : Prop :=
  offset.toNat + length.toNat < 2 ^ 64 ∧
    (offset.toNat + length.toNat ≤ mcap.length →
      OnlyReturns D pick ((mcap.take (offset.toNat + length.toNat)).drop offset.toNat))

theorem readIndexed_returns_iff {α : Type} (pick : Record → Option α) (mcap : Bytes)
    (offset length : UInt64) :
    (∃ x, Eventually (readIndexed D · pick mcap offset length) x ∧ x ≠ .panic) ↔
      PlaceReturns D pick mcap offset length := by
  have hconst : ∀ {x : Res McapError α}, Eventually (fun _ => some x) x := ⟨0, fun _ _ => rfl⟩
  unfold readIndexed PlaceReturns indexedSlice
  rw [← onlyReturns_iff]
  by_cases hsum : offset.toNat + length.toNat < 2 ^ 64
  · rw [checkedAdd, if_pos hsum]
    simp only [Res.bind, hsum, true_and]
    by_cases hfile : mcap.length < offset.toNat + length.toNat
    · simp only [if_pos hfile]
      exact iff_of_true ⟨_, hconst, by simp⟩ fun h => absurd h (by omega)
    · rw [if_neg hfile, sliceOf_eq (by omega) (by omega)]
      exact ⟨fun h _ => h, fun h => h (by omega)⟩
  · rw [checkedAdd, if_neg hsum]
    refine iff_of_false ?_ fun h => hsum h.1
    rintro ⟨x, hx, hne⟩
    exact hne (hx.unique hconst)

/-! ## The loop of `seek_message` -/

/-- The records of a chunk, the first of them at `off`, as far as a message at `target` is looked for: no
record that is passed is followed by one whose length overflows, and the record at `target` is not one
that `parse_record` panics on. -/
def SeekReturns (target off : Nat) (data : Bytes) : Prop :=
  (∀ recs tail, data = frames recs ++ tail → Huge tail →
    ∃ before after, recs = before ++ after ∧ after ≠ [] ∧ target ≤ off + (frames before).length) ∧
  ∀ recs body tail, data = frames recs ++ (frame op.ATTACHMENT body ++ tail) →
    off + (frames recs).length = target → ¬ EndsBeforeCrc body

section
variable {target off : Nat} {opcode : UInt8} {body bytes : Bytes}

theorem frames_eq_of_short {recs : List (UInt8 × Bytes)} {tail : Bytes} (hlen : bytes.length ≤ USIZE_MAX)
    (hshort : Short bytes) (h : bytes = frames recs ++ tail) : recs = [] ∧ tail = bytes := by
  cases recs with
  | nil => exact ⟨rfl, h.symm⟩
  | cons p recs =>
    obtain ⟨opcode, body⟩ := p
    rw [frames_cons, List.append_assoc] at h
    subst h
    exact absurd hshort (not_short_frame hlen)

theorem frames_eq_of_frame {recs : List (UInt8 × Bytes)} {tail : Bytes}
    (hlen : (frame opcode body ++ bytes).length ≤ USIZE_MAX)
    (h : frame opcode body ++ bytes = frames recs ++ tail) :
    (recs = [] ∧ tail = frame opcode body ++ bytes) ∨
      ∃ recs', recs = (opcode, body) :: recs' ∧ bytes = frames recs' ++ tail := by
  cases recs with
  | nil => exact .inl ⟨rfl, h.symm⟩
  | cons p recs =>
    obtain ⟨opcode', body'⟩ := p
    rw [frames_cons, List.append_assoc] at h
    obtain ⟨rfl, rfl, hrest⟩ := frame_append_inj hlen h
    exact .inr ⟨recs, rfl, hrest⟩

theorem not_short_of_huge (h : ¬ Short bytes) : ¬ Huge bytes ∨ USIZE_MAX < bytes.length := by
  unfold Short at h
  push Not at h
  obtain ⟨h9, hle⟩ := h
  by_cases hhuge : Huge bytes
  · exact .inr (by have := hhuge.2; omega)
  · exact .inl hhuge

theorem seekReturns_short (hlen : bytes.length ≤ USIZE_MAX) (hshort : Short bytes) :
    SeekReturns target off bytes ↔ ¬ Huge bytes := by
  constructor
  · rintro ⟨hall, -⟩ hhuge
    obtain ⟨before, after, hsplit, hne, -⟩ := hall [] bytes rfl hhuge
    exact hne (List.append_eq_nil_iff.mp hsplit.symm).2
  · intro hhuge
    refine ⟨fun recs tail h htail => ?_, fun recs body tail h => ?_⟩
    · obtain ⟨-, rfl⟩ := frames_eq_of_short hlen hshort h
      exact absurd htail hhuge
    · obtain ⟨-, htail⟩ := frames_eq_of_short hlen hshort h
      rw [← htail] at hshort hlen
      exact absurd hshort (not_short_frame hlen)

theorem seekReturns_passed (hlen : (frame opcode body ++ bytes).length ≤ USIZE_MAX) (hoff : off < target) :
    SeekReturns target off (frame opcode body ++ bytes) ↔
      SeekReturns target (off + (9 + body.length)) bytes := by
  have hsum : ∀ recs : List (UInt8 × Bytes), off + (frames ((opcode, body) :: recs)).length =
      off + (9 + body.length) + (frames recs).length := by
    intro recs
    rw [frames_cons, List.length_append, length_frame]
    omega
  constructor
  · rintro ⟨hhuge, hat⟩
    refine ⟨fun recs tail h htail => ?_, fun recs body' tail h htarget => ?_⟩
    · obtain ⟨before, after, hsplit, hne, hle⟩ := hhuge ((opcode, body) :: recs) tail
        (by rw [frames_cons, List.append_assoc, h]) htail
      cases before with
      | nil => exact absurd hle (by simp; omega)
      | cons p before =>
        obtain ⟨rfl, rfl⟩ := List.cons.inj hsplit
        rw [hsum] at hle
        exact ⟨before, after, rfl, hne, hle⟩
    · exact hat ((opcode, body) :: recs) body' tail (by rw [frames_cons, List.append_assoc, h])
        ((hsum recs).trans htarget)
  · rintro ⟨hhuge, hat⟩
    refine ⟨fun recs tail h htail => ?_, fun recs body' tail h htarget => ?_⟩
    · rcases frames_eq_of_frame hlen h with ⟨-, rfl⟩ | ⟨recs', rfl, h'⟩
      · exact absurd htail ((not_short_of_huge (not_short_frame hlen)).resolve_right (by omega))
      · obtain ⟨before, after, rfl, hne, hle⟩ := hhuge recs' tail h' htail
        exact ⟨(opcode, body) :: before, after, rfl, hne, by rw [hsum]; exact hle⟩
    · rcases frames_eq_of_frame hlen h with ⟨rfl, -⟩ | ⟨recs', rfl, h'⟩
      · simp only [frames_nil, List.length_nil] at htarget
        omega
      · exact hat recs' body' tail h' ((hsum recs').symm.trans htarget)

theorem seekReturns_found (hlen : (frame opcode body ++ bytes).length ≤ USIZE_MAX) (hoff : target ≤ off) :
    SeekReturns target off (frame opcode body ++ bytes) ↔
      (off = target → ¬ (opcode = op.ATTACHMENT ∧ EndsBeforeCrc body)) := by
  constructor
  · rintro ⟨-, hat⟩ rfl ⟨rfl, hends⟩
    exact hat [] body bytes rfl rfl hends
  · intro hfound
    refine ⟨fun recs tail h htail => ?_, fun recs body' tail h htarget => ?_⟩
    · rcases frames_eq_of_frame hlen h with ⟨-, rfl⟩ | ⟨recs', rfl, h'⟩
      · exact absurd htail ((not_short_of_huge (not_short_frame hlen)).resolve_right (by omega))
      · exact ⟨[], _, rfl, by simp, by simpa using hoff⟩
    · rcases frames_eq_of_frame hlen h with ⟨rfl, h'⟩ | ⟨recs', rfl, -⟩
      · obtain ⟨rfl, rfl, -⟩ := frame_append_inj (by rw [h']; exact hlen) h'
        exact fun hends => hfound (by simpa using htarget) ⟨rfl, hends⟩
      · rw [frames_cons, List.length_append, length_frame] at htarget
        omega

end

theorem told_plain_nil {c : OpenChunk} {h : Option Hasher} (hpad : c.padding = 0) :
    Told (o := chunkReaderOptions) (noDecoding D none)
      (fun out => (∃ i, out = .ended i) ∨ ∃ e i, out = .item (.error e) i) ⟨.plainChunk 0 c, [], h⟩ := by
  refine told_of_turn (show Tells _ _ _ (SpecTurn.again ⟨.paddingAfterChunk c, [], h⟩) from ?_)
  have hlast : ∀ h', Told (o := chunkReaderOptions) (noDecoding D none)
      (fun out => (∃ i, out = .ended i) ∨ ∃ e i, out = .item (.error e) i) ⟨.fileRecord, [], h'⟩ :=
    fun h' => told_of_turn (show Tells _ _ _ SpecTurn.eof from tells_eof)
  refine told_of_turn ?_
  have hturn : Spec.turn D chunkReaderOptions ⟨.paddingAfterChunk c, [], h⟩ =
      Spec.paddingAfterChunk ⟨.paddingAfterChunk c, [], h⟩ c := rfl
  rw [hturn, Spec.paddingAfterChunk, hpad, Spec.need, if_neg (Nat.not_lt_zero _)]
  dsimp only
  split
  · exact hlast _
  · split
    · exact fun i => .inr ⟨_, i, rfl⟩
    · exact hlast _

section
variable {summary : Summary} {target off : Nat} {i i' : InnerReader δ}

theorem halts_seekLoop_end {out : Next (InnerReader δ) (Except McapError (UInt8 × Bytes))}
    (hout : Comes (InnerReader.nextRaw D) i out)
    (h : (∃ i, out = .ended i) ∨ ∃ e i, out = .item (.error e) i) :
    Halts (seekLoop D summary target · i off) := by
  obtain ⟨N, hN⟩ := hout
  rcases h with ⟨_, rfl⟩ | ⟨e, _, rfl⟩
  · exact ⟨.error .badIndex, (Progress.settles_succ_iff (N := N) fun fuel hfuel => by
      rw [seekLoop, hN (fuel + 1) (by omega)]).mpr (.const _)⟩
  · exact ⟨.error e, (Progress.settles_succ_iff (N := N) fun fuel hfuel => by
      rw [seekLoop, hN (fuel + 1) (by omega)]).mpr (.const _)⟩

theorem not_halts_seekLoop_panic (hout : Comes (InnerReader.nextRaw D) i .panic) :
    ¬ Halts (seekLoop D summary target · i off) := by
  obtain ⟨N, hN⟩ := hout
  rintro ⟨b, hb⟩
  have hpanic := (Progress.settles_succ_iff (y := fun _ => Progress.panic) (N := N) fun fuel hfuel => by
    rw [seekLoop, hN (fuel + 1) (by omega)]).mp hb
  cases Progress.settles_const_iff.mp hpanic

theorem halts_seekLoop_passed {opcode : UInt8} {data : Bytes}
    (hout : Comes (InnerReader.nextRaw D) i (.item (.ok (opcode, data)) i')) (hoff : off < target)
    (hsum : off + (9 + data.length) < 2 ^ 64) : Halts (seekLoop D summary target · i off) ↔
      Halts (seekLoop D summary target · i' (off + (9 + data.length))) := by
  obtain ⟨N, hN⟩ := hout
  refine exists_congr fun b => Progress.settles_succ_iff (N := N) fun fuel hfuel => ?_
  rw [seekLoop, hN (fuel + 1) (by omega)]
  dsimp only
  rw [if_pos hoff, if_neg (by omega)]

theorem halts_seekLoop_found {opcode : UInt8} {data : Bytes}
    (hout : Comes (InnerReader.nextRaw D) i (.item (.ok (opcode, data)) i')) (hoff : target ≤ off) :
    Halts (seekLoop D summary target · i off) ↔
      (off = target → ¬ (opcode = op.ATTACHMENT ∧ EndsBeforeCrc data)) := by
  obtain ⟨N, hN⟩ := hout
  have hstep : ∀ fuel, N ≤ fuel → seekLoop D summary target (fuel + 1) i off =
      if off ≠ target then .done (.error .badIndex) else soughtMessage summary opcode data := by
    intro fuel hfuel
    rw [seekLoop, hN (fuel + 1) (by omega)]
    dsimp only
    rw [if_neg (by omega)]
  refine (exists_congr fun b => (Progress.settles_succ_iff hstep).trans
    Progress.settles_const_iff).trans ?_
  by_cases heq : off = target
  · rw [if_neg (not_not.mpr heq), ← parseRecord_panics_iff, soughtMessage]
    rcases parseRecord opcode data with record | e | _
    · exact iff_of_true (by cases record <;> exact ⟨_, rfl⟩) fun _ => by simp
    · exact iff_of_true ⟨_, rfl⟩ fun _ => by simp
    · exact iff_of_false (by simp) fun h => h heq rfl
  · rw [if_pos heq]
    exact iff_of_true ⟨_, rfl⟩ fun h => absurd h heq

/-- **A message is looked for** in a chunk that is not compressed. -/
theorem seekLoop_returns_iff {bytes : Bytes} {r : LinearReader δ} {rest : Bytes} {c : OpenChunk}
    {h : Option Hasher} (hpad : c.padding = 0) (hlen : off + bytes.length ≤ USIZE_MAX)
    (hs : Sim (o := chunkReaderOptions) (noDecoding D none) r rest
      ⟨.plainChunk bytes.length c, bytes, h⟩) :
    Halts (seekLoop D summary target · ⟨rest, r⟩ off) ↔ SeekReturns target off bytes := by
  induction hn : bytes.length using Nat.strong_induction_on generalizing bytes r rest c h off with
  | _ n ih =>
    subst hn
    by_cases hnil : bytes = []
    · subst hnil
      obtain ⟨out, hout, -, hend⟩ := told_plain_nil hpad r rest hs
      have hshort : Short [] := fun h9 => absurd h9 (by decide)
      refine iff_of_true (halts_seekLoop_end hout hend) ((seekReturns_short (by decide) hshort).mpr ?_)
      exact fun hhuge => absurd hhuge.1 (by decide)
    · have hbytes : bytes.length ≤ USIZE_MAX := by omega
      rcases plainChunk_cases (D := D) bytes hnil hbytes c h with
        ⟨hshort, hhuge, hturn⟩ | ⟨hshort, hhuge, hturn⟩ | ⟨opcode, body, bytes', hasher, h', rfl, hturn⟩
      · obtain ⟨out, hout, -, hend⟩ := told_of_turn (by rw [hturn]; exact tells_eof) r rest hs
        exact iff_of_true (halts_seekLoop_end hout hend) ((seekReturns_short hbytes hshort).mpr hhuge)
      · obtain ⟨_, hout, -, rfl⟩ := told_of_turn (Q := fun out => out = .panic)
          (by rw [hturn]; rfl) r rest hs
        exact iff_of_false (not_halts_seekLoop_panic hout) fun hreturns =>
          (seekReturns_short hbytes hshort).mp hreturns hhuge
      · obtain ⟨_, hout, -, r', rest', hs', rfl⟩ := told_of_turn
          (Q := fun out => ∃ r' rest', Sim (o := chunkReaderOptions) (noDecoding D none) r' rest'
            ⟨.plainChunk bytes'.length { c with hasher }, bytes', h'⟩ ∧
              out = .item (.ok (opcode, body)) ⟨rest', r'⟩)
          (by rw [hturn]; exact fun r' rest' hs' => ⟨r', rest', hs', rfl⟩) r rest hs
        have hlength : (frame opcode body ++ bytes').length = 9 + body.length + bytes'.length := by
          rw [List.length_append, length_frame]
        by_cases hoff : off < target
        · rw [seekReturns_passed hbytes hoff, halts_seekLoop_passed hout hoff
            (by simp only [USIZE_MAX] at hlen; omega)]
          exact ih bytes'.length (by omega) (c := { c with hasher }) hpad (by omega) hs' rfl
        · rw [seekReturns_found hbytes (by omega), halts_seekLoop_found hout (by omega)]

end

variable (D) in
/-- The chunk of an index, and what is looked at in it.  How the bytes of a compressed chunk are read is a
matter of the decompressor. -/
def ChunkSeekReturns (summary : Summary) (mcap : Bytes) (index : ChunkIndex) (message : MessageIndexEntry) :
    Prop :=
  ChunkInRange mcap index ∧ ∀ header data, indexedChunk mcap index = .ok (header, data) →
    if header.compression = "" then SeekReturns message.offset.toNat 0 data
    else ∀ reader, chunkReader D header data = .ok reader →
      Halts (seekLoop D summary message.offset.toNat · reader 0)

theorem seekMessage_returns_iff (summary : Summary) {mcap : Bytes} (hlen : mcap.length ≤ ISIZE_MAX)
    (index : ChunkIndex) (message : MessageIndexEntry) :
    Halts (seekMessage D · summary mcap index message) ↔
      ChunkSeekReturns D summary mcap index message := by
  unfold seekMessage ChunkSeekReturns
  rw [← indexedChunk_returns_iff hlen]
  rcases hchunk : indexedChunk mcap index with ⟨header, data⟩ | e | _
  · have hsize := size_of_indexedChunk hchunk
    have hwithin : 0 + data.length ≤ USIZE_MAX := by
      have hlt := header.compressedSize.toNat_lt
      simp only [USIZE_MAX]
      omega
    refine Iff.trans ?_ (and_iff_right (by simp)).symm
    refine Iff.trans (b := ∀ reader, chunkReader D header data = .ok reader →
      Halts (seekLoop D summary message.offset.toNat · reader 0)) ?_
      ⟨fun h header' data' heq => ?_, fun h => ?_⟩
    · dsimp only
      rcases chunkReader D header data with e | reader
      · exact iff_of_true ⟨_, .const _⟩ fun _ h => by cases h
      · exact ⟨fun h _ heq => by cases heq; exact h, fun h => h reader rfl⟩
    · cases heq
      split
      · rename_i hplain
        obtain ⟨⟨buf, reader⟩, hr⟩ := exists_chunkReader (D := D) hplain data
        obtain ⟨rfl, c, h', hpad, hs⟩ := sim_forChunk hplain hsize hr
        exact (seekLoop_returns_iff hpad hwithin hs).mp (h _ hr)
      · exact h
    · have hd := h header data rfl
      split at hd
      · rename_i hplain
        rintro ⟨buf, reader⟩ hr
        obtain ⟨rfl, c, h', hpad, hs⟩ := sim_forChunk hplain hsize hr
        exact (seekLoop_returns_iff hpad hwithin hs).mpr hd
      · exact hd
  · exact iff_of_true ⟨_, .const _⟩ ⟨by simp, fun _ _ h => by cases h⟩
  · refine iff_of_false ?_ fun h => h.1 rfl
    rintro ⟨b, hb⟩
    cases Progress.settles_const_iff.mp hb

end

/-! ## The calls on an `IndexedReader` -/

namespace IndexedReader
variable {r : IndexedReader}

/-- The data of a chunk that is not compressed has the size that the buffer for it has. -/
def SizesAgree (offset : UInt64) (data : Bytes) (r : IndexedReader) : Prop :=
  ∀ i c, findChunk offset r.uninserted = .ok (some (i, c)) → data.length = c.compressedSize.toNat →
    c.compression = "" → c.compressedSize = c.uncompressedSize

theorem findChunk_ne_panic {offset : UInt64} {l : List ChunkIndex}
    (h : ∀ c ∈ l, ∃ off, c.compressedDataOffset = .ok off) : findChunk offset l ≠ .panic := by
  induction l with
  | nil => simp [findChunk]
  | cons c l ih =>
    obtain ⟨off, hoff⟩ := h c (List.mem_cons_self ..)
    have hrest := ih fun c hc => h c (List.mem_cons_of_mem _ hc)
    rw [findChunk, hoff]
    dsimp only
    split
    · simp
    · rcases hfound : findChunk offset l with (_ | ⟨i, c⟩) | e | _
      · simp
      · simp
      · simp
      · exact absurd hfound hrest

theorem decode_returns_iff (C : Codecs) (compression : String) (size : Nat) (data : Bytes) :
    decode C compression size data ≠ .panic ↔ (compression = "" → data.length = size) := by
  unfold decode
  by_cases hplain : compression = ""
  · rw [if_pos hplain]
    by_cases hsize : data.length = size
    · rw [if_pos hsize]
      exact iff_of_true (by simp) fun _ => hsize
    · rw [if_neg hsize]
      exact iff_of_false (by simp) fun h => hsize (h hplain)
  · rw [if_neg hplain]
    refine iff_of_true ?_ fun h => absurd h hplain
    split
    · split
      · simp
      · split <;> simp
    · split
      · split <;> simp
      · simp

/-- **An insertion panics** only where it copies the data of a chunk into its buffer. -/
theorem insert_returns_iff (C : Codecs) (h : Good r) (offset : UInt64) (data : Bytes) :
    (insertChunkRecordData C offset data r).1 ≠ .panic ↔ SizesAgree offset data r := by
  have hfind : findChunk offset r.uninserted ≠ .panic := findChunk_ne_panic h.offsets
  rw [insert_eq]
  unfold SizesAgree
  rcases hfound : findChunk offset r.uninserted with (_ | ⟨i, c⟩) | e | _
  · exact iff_of_true (by simp) fun _ _ heq => by cases heq
  · dsimp only
    by_cases hlen : data.length = c.compressedSize.toNat
    · rw [if_neg (not_not.mpr hlen)]
      have hsizes : (∀ i' c', Res.ok (ε := McapError) (some (i, c)) = .ok (some (i', c')) →
          data.length = c'.compressedSize.toNat → c'.compression = "" →
            c'.compressedSize = c'.uncompressedSize) ↔
          (c.compression = "" → data.length = c.uncompressedSize.toNat) := by
        constructor
        · intro hall hplain
          rw [hlen, hall i c rfl hlen hplain]
        · rintro hall _ _ heq - hplain
          cases heq
          exact UInt64.toNat_inj.mp (hlen.symm.trans (hall hplain))
      rw [hsizes, ← decode_returns_iff C]
      rcases decode C c.compression c.uncompressedSize.toNat data with buf | e | _
      · refine iff_of_true ?_ (by simp)
        obtain ⟨r', hrun, -⟩ := indexChunk_eq i (findOrMakeChunkSlot offset r.chunkSlots).1 buf
          ((r.takeSlot offset).fillSlot (findOrMakeChunkSlot offset r.chunkSlots).1 buf)
        dsimp only
        rw [hrun]
        split <;> simp
      · simp
      · simp
    · rw [if_pos hlen]
      refine iff_of_true (by simp) fun _ _ heq hlen' => ?_
      cases heq
      exact absurd hlen' hlen
  · exact iff_of_true (by simp) fun _ _ heq => by cases heq
  · exact absurd hfound hfind

end IndexedReader

/-! ## All of them -/

section
variable {δ : Type} (D : Decompressor δ)

/-- The message indexes of a chunk, one after another: each of them can be read, as long as those before it
are there. -/
def IndexesReturn (summary : Summary) (mcap : Bytes) (index : ChunkIndex) : Prop :=
  ∀ before entry after indexes, index.messageIndexOffsets.toList = before ++ entry :: after →
    Progress.Settles (collectIndexes D · summary mcap before []) (.done (.ok indexes)) →
      EntryReturns D mcap entry.2

theorem readMessageIndexes_returns_iff (summary : Summary) (mcap : Bytes) (index : ChunkIndex) :
    Halts (readMessageIndexes D · summary mcap index) ↔ IndexesReturn D summary mcap index := by
  unfold readMessageIndexes IndexesReturn
  by_cases hempty : index.messageIndexOffsets.isEmpty = true
  · simp only [if_pos hempty]
    refine iff_of_true ⟨_, .const _⟩ fun before entry after _ hsplit => ?_
    have hnil : index.messageIndexOffsets.toList = [] := by
      rw [← List.isEmpty_iff, Std.ExtTreeMap.isEmpty_toList]
      exact hempty
    rw [hnil] at hsplit
    simp at hsplit
  · simp only [if_neg hempty]
    exact collectIndexes_returns_iff summary mcap _ []

/-- When the reads by an index of the file `mcap` return. -/
structure IndexedReadsReturn (C : Codecs) (summary : Summary) (mcap : Bytes) : Prop where
  streamChunk : ∀ index, streamChunk D mcap index ≠ .panic ↔ ChunkInRange mcap index
  readMessageIndexes : ∀ index,
    Halts (readMessageIndexes D · summary mcap index) ↔ IndexesReturn D summary mcap index
  seekMessage : ∀ index message, Halts (seekMessage D · summary mcap index message) ↔
    ChunkSeekReturns D summary mcap index message
  attachment : ∀ index : AttachmentIndex,
    (∃ x, Eventually (attachment D · mcap index) x ∧ x ≠ .panic) ↔
      PlaceReturns D Record.toAttachment? mcap index.offset index.length
  metadata : ∀ index : MetadataIndex, (∃ x, Eventually (metadata D · mcap index) x ∧ x ≠ .panic) ↔
    PlaceReturns D Record.toMetadata? mcap index.offset index.length
  /-- Of the calls that lead to the reader `r`, none panics, and those that fail leave no index behind. -/
  indexedReader : ∀ options r₀ r, IndexedReader.newWithOptions summary options = .ok r₀ →
    IndexedReader.Leads C r₀ r → (IndexedReader.nextEvent r).1 ≠ .panic ∧
      ∀ offset data, (IndexedReader.insertChunkRecordData C offset data r).1 ≠ .panic ↔
        IndexedReader.SizesAgree offset data r

end

/-- A chunk index with this place. -/
def indexNaming (offset length : UInt64) : ChunkIndex where
  messageStartTime := 0
  messageEndTime := 0
  chunkStartOffset := offset
  chunkLength := length
  messageIndexOffsets := ∅
  messageIndexLength := 0
  compression := ""
  compressedSize := 0
  uncompressedSize := 0

/-- An attachment index with this place. -/
def attachmentAt (offset length : UInt64) : AttachmentIndex where
  offset
  length
  logTime := 0
  createTime := 0
  dataSize := 0
  name := ""
  mediaType := ""

end Mcap

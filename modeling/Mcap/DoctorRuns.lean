import Mcap.ChunkReading
import Mcap.Fragmentation

/-! # Runs of the doctor

`diagnose_mcap` returns on a file exactly if it returns on each record that the scan sees.  On a chunk
it goes on behind an error, and so it returns only if the chunk is read to its end: a chunk that is not
compressed has to end with a record (`plain_ends_iff`).

`scan_settles` is the run lemma, by induction on what the scan sees, and `scan_bound` keeps the offsets of
the scan in range.  Of the doctor's state, the loop over the chunk indexes depends on the offsets these
have; they come from the records of the scan (`contains_scanned`).
-/
namespace Mcap
open Progress (Rising)

namespace Doctor
variable {d : Doctor} {acc : Doctor × Tally}

/-! ## The chunk indexes -/

@[simp] theorem chunkIndexes_warn (f : Finding) : (d.warn f).chunkIndexes = d.chunkIndexes := rfl

@[simp] theorem chunkIndexes_error (f : Finding) : (d.error f).chunkIndexes = d.chunkIndexes := rfl

@[simp] theorem chunkIndexes_errorIf (p : Prop) [Decidable p] (f : Finding) :
    (d.errorIf p f).chunkIndexes = d.chunkIndexes := by
  unfold errorIf
  split <;> rfl

@[simp] theorem chunkIndexes_warnIf (p : Prop) [Decidable p] (f : Finding) :
    (d.warnIf p f).chunkIndexes = d.chunkIndexes := by
  unfold warnIf
  split <;> rfl

@[simp] theorem chunkIndexes_examineSchema (header : SchemaHeader) (data : Bytes) :
    (d.examineSchema header data).chunkIndexes = d.chunkIndexes := by
  unfold examineSchema
  dsimp only
  split <;> split <;> simp

@[simp] theorem chunkIndexes_examineChannel (channel : ChannelRecord) :
    (d.examineChannel channel).chunkIndexes = d.chunkIndexes := by
  unfold examineChannel
  dsimp only
  split <;> split <;> simp

@[simp] theorem chunkIndexes_observeMessageTime (logTime : UInt64) :
    (d.observeMessageTime logTime).chunkIndexes = d.chunkIndexes := rfl

@[simp] theorem chunkIndexes_examineTopLevelMessage (header : MessageHeader) :
    (d.examineTopLevelMessage header).chunkIndexes = d.chunkIndexes := by
  unfold examineTopLevelMessage
  dsimp only
  split <;> simp

@[simp] theorem chunkIndexes_examineNestedMessage (header : MessageHeader) :
    (d.examineNestedMessage header).chunkIndexes = d.chunkIndexes := by
  unfold examineNestedMessage
  dsimp only
  split
  · split
    · split <;> simp
    · simp
  · simp

@[simp] theorem chunkIndexes_warnMessageIndexOutsideChunksOnce :
    d.warnMessageIndexOutsideChunksOnce.chunkIndexes = d.chunkIndexes := by
  unfold warnMessageIndexOutsideChunksOnce
  split <;> simp

@[simp] theorem chunkIndexes_finalizeRecordPresence :
    d.finalizeRecordPresence.chunkIndexes = d.chunkIndexes := by simp [finalizeRecordPresence]

/-! ## The records of a chunk -/

/-- The times of a tally are there as soon as it has a message. -/
def Tally.Timed (t : Tally) : Prop :=
  0 < t.chunkMessageCount → t.minLogTime ≠ none ∧ t.maxLogTime ≠ none

theorem examineNested_keeps (startOffset : UInt64) (ht : acc.2.Timed)
    (item : Except McapError Record) : (examineNested startOffset acc item).2.Timed ∧
      (examineNested startOffset acc item).1.chunkIndexes = acc.1.chunkIndexes := by
  obtain ⟨d, t⟩ := acc
  rcases item with e | record
  · exact ⟨ht, rfl⟩
  · cases record
    case message header data => exact ⟨fun _ => ⟨by simp [Tally.add, examineNested],
      by simp [Tally.add, examineNested]⟩, by simp [examineNested]⟩
    all_goals exact ⟨ht, by simp [examineNested]⟩

theorem foldl_examineNested_keeps (startOffset : UInt64) (items : List (Except McapError Record))
    (ht : acc.2.Timed) :
    (items.foldl (examineNested startOffset) acc).2.Timed ∧
      (items.foldl (examineNested startOffset) acc).1.chunkIndexes = acc.1.chunkIndexes := by
  induction items generalizing acc with
  | nil => exact ⟨ht, rfl⟩
  | cons item items ih =>
    obtain ⟨ht', hsame⟩ := examineNested_keeps startOffset ht item
    obtain ⟨ht'', hsame'⟩ := ih ht'
    exact ⟨ht'', hsame'.trans hsame⟩

/-- **The end of a chunk** never panics. -/
theorem closeChunk_done (header : ChunkHeader) (startOffset : UInt64) (ht : acc.2.Timed) :
    ∃ d', closeChunk header startOffset acc = .done d' ∧ d'.chunkIndexes = acc.1.chunkIndexes := by
  obtain ⟨d, t⟩ := acc
  simp only [closeChunk]
  split
  · rename_i hpos
    obtain ⟨hmin, hmax⟩ := ht hpos
    obtain ⟨tmin, hmin⟩ := Option.ne_none_iff_exists'.mp hmin
    obtain ⟨tmax, hmax⟩ := Option.ne_none_iff_exists'.mp hmax
    simp only at hmin hmax
    rw [hmin, hmax]
    exact ⟨_, rfl, by simp⟩
  · exact ⟨_, rfl, rfl⟩

end Doctor

section
variable {δ : Type} (D : Decompressor δ)

/-- **The chunks that are read to their end.**  How the bytes of a compressed chunk are read is a matter
of the decompressor. -/
def ChunkEnds (header : ChunkHeader) (data : Bytes) : Prop :=
  if header.compression = "" then WholeRecords data
  else ∀ reader, chunkReader D header data = .ok reader →
    ∃ items, Drains (InnerReader.next D) reader items .finished

variable {D}

/-- **What `ChunkEnds` says of the reader of a chunk.** -/
theorem chunkEnds_iff {header : ChunkHeader} {data : Bytes}
    (hsize : header.compressedSize.toNat = data.length) :
    ChunkEnds D header data ↔ ∀ reader, chunkReader D header data = .ok reader →
      ∃ items, Drains (InnerReader.next D) reader items .finished := by
  unfold ChunkEnds
  split
  · rename_i hplain
    have hlen : data.length ≤ USIZE_MAX := by
      have hlt := header.compressedSize.toNat_lt
      simp only [USIZE_MAX]
      omega
    have hends : ∀ reader, chunkReader D header data = .ok reader →
        ((∃ items, Drains (InnerReader.next D) reader items .finished) ↔ WholeRecords data) := by
      rintro ⟨buf, reader⟩ hreader
      obtain ⟨rfl, c, h, hpad, hs⟩ := sim_forChunk hplain hsize hreader
      exact plain_ends_iff hpad hlen hs
    obtain ⟨reader, hreader⟩ := exists_chunkReader (D := D) hplain data
    exact ⟨fun h reader hr => (hends reader hr).mpr h, fun h => (hends reader hreader).mp (h reader hreader)⟩
  · rfl

namespace Doctor
variable {d : Doctor}

theorem rising_examineChunk (d : Doctor) (header : ChunkHeader) (data : Bytes) (startOffset : UInt64) :
    Rising (d.examineChunk D · header data startOffset) := by
  unfold examineChunk
  split
  · exact .const _
  · exact Rising.bind (rising_foldItems InnerReader.rising_next _ _) fun _ => .const _

/-- **A chunk**: the loop over its records goes on behind an error, and ends with the chunk. -/
theorem examineChunk_settles_iff {header : ChunkHeader} {data : Bytes} (startOffset : UInt64)
    (hsize : header.compressedSize.toNat = data.length) :
    (∃ d', Progress.Settles (d.examineChunk D · header data startOffset) (.done d')) ↔ ChunkEnds D header data := by
  rw [chunkEnds_iff hsize]
  unfold examineChunk
  rcases hreader : chunkReader D header data with e | reader
  · exact iff_of_true ⟨_, .const _⟩ fun _ h => by cases h
  · constructor
    · rintro ⟨d', hd'⟩ _ hr
      cases hr
      obtain ⟨acc, ⟨N, hN⟩, -⟩ := (Progress.settles_bind_iff
        (rising_foldItems InnerReader.rising_next _ _)).mp hd'
      obtain ⟨items, hitems, -⟩ := drains_of_foldItems InnerReader.rising_next (hN N (Nat.le_refl N))
      exact ⟨items, hitems⟩
    · intro h
      obtain ⟨items, hitems⟩ := h reader rfl
      have htimed : Tally.empty.Timed := fun h => absurd h (Nat.lt_irrefl 0)
      obtain ⟨ht, -⟩ := foldl_examineNested_keeps startOffset items (show (d, Tally.empty).2.Timed from htimed)
      obtain ⟨d', hd', -⟩ := closeChunk_done header startOffset ht
      exact ⟨d', (foldItems_of_drains hitems).bind (hd' ▸ .const _)⟩

theorem chunkIndexes_examineChunk {fuel : Nat} {header : ChunkHeader} {data : Bytes}
    {startOffset : UInt64} {d' : Doctor}
    (h : d.examineChunk D fuel header data startOffset = .done d') :
    d'.chunkIndexes = d.chunkIndexes := by
  unfold examineChunk at h
  split at h
  · cases h
    rfl
  · obtain ⟨acc, hfold, hclose⟩ := Progress.bind_eq_done.mp h
    obtain ⟨items, -, rfl⟩ := drains_of_foldItems InnerReader.rising_next hfold
    have htimed : Tally.empty.Timed := fun h => absurd h (Nat.lt_irrefl 0)
    obtain ⟨ht, hsame⟩ := foldl_examineNested_keeps startOffset items
      (show (d, Tally.empty).2.Timed from htimed)
    obtain ⟨d₂, hd₂, hsame'⟩ := closeChunk_done header startOffset ht
    rw [hd₂] at hclose
    cases hclose
    exact hsame'.trans hsame

end Doctor

/-! ## The scan -/

variable (D) in
/-- The records that `scan_top_level` returns on. -/
def ScanReturns (opcode : UInt8) (data : Bytes) : Prop :=
  ¬ (opcode = op.ATTACHMENT ∧ EndsBeforeCrc data) ∧
  ∀ header chunk, parseRecord opcode data = .ok (.chunk header chunk) → ChunkEnds D header chunk

namespace Doctor
variable {d : Doctor} {opcode : UInt8} {data : Bytes}

theorem rising_scanRecord (d : Doctor) (offset : UInt64) (opcode : UInt8) (data : Bytes) :
    Rising (d.scanRecord D · offset opcode data) := by
  unfold scanRecord
  rcases parseRecord opcode data with record | e | _
  · cases record
    case chunk header chunk => exact rising_examineChunk d header chunk offset
    all_goals exact .const _
  all_goals exact .const _

theorem scanRecord_settles_iff (offset : UInt64) :
    (∃ d', Progress.Settles (d.scanRecord D · offset opcode data) (.done d')) ↔ ScanReturns D opcode data := by
  unfold scanRecord ScanReturns
  rw [← parseRecord_panics_iff]
  rcases hparsed : parseRecord opcode data with record | e | _
  · cases record
    case chunk header chunk =>
      refine (examineChunk_settles_iff offset (size_of_parse_chunk hparsed)).trans ⟨fun h => ⟨by simp, ?_⟩,
        fun h => h.2 header chunk rfl⟩
      rintro _ _ heq
      cases heq
      exact h
    all_goals exact iff_of_true ⟨_, .const _⟩ ⟨by simp, fun _ _ heq => by cases heq⟩
  · exact iff_of_true ⟨_, .const _⟩ ⟨by simp, fun _ _ heq => by cases heq⟩
  · refine iff_of_false ?_ fun h => h.1 rfl
    rintro ⟨d', hd'⟩
    cases Progress.settles_const_iff.mp hd'

theorem contains_scanRecord {fuel : Nat} {offset : UInt64} {d' : Doctor}
    (h : d.scanRecord D fuel offset opcode data = .done d') (k : UInt64) :
    d'.chunkIndexes.contains k = true ↔ d.chunkIndexes.contains k = true ∨
      ∃ index, parseRecord opcode data = .ok (.chunkIndex index) ∧ index.chunkStartOffset = k := by
  unfold scanRecord at h
  rcases hparsed : parseRecord opcode data with record | e | _ <;> simp only [hparsed] at h
  case ok =>
    cases record
    case chunk header chunk => simp [chunkIndexes_examineChunk h]
    case chunkIndex index =>
      cases h
      rw [chunkIndexes_errorIf, Std.ExtTreeMap.contains_insert]
      simp only [Bool.or_eq_true, beq_iff_eq, BTreeMap.compare_eq_iff]
      split <;> simp [or_comm]
    case messageIndex index =>
      cases h
      split <;> simp
    all_goals
      cases h
      simp
  case err =>
    cases h
    simp
  case panic => cases h

/-- What the end of the scan adds. -/
def afterScan (d : Doctor) : Final → Doctor
  | .failed e => d.error (.failedToReadToken e)
  | _ => d

variable (D) in
/-- **A scan**: the records one by one, from the offset `n` on. -/
inductive Scanned (fin : Final) : Nat → Doctor → List (UInt8 × Bytes) → Doctor → Prop
  | ended {n d} : Scanned fin n d [] (d.afterScan fin)
  | record {n d d₁ d' opcode data evs} :
      Progress.Settles (d.scanRecord D · (.ofNat n) opcode data) (.done d₁) →
      Scanned fin (n + (9 + data.length)) d₁ evs d' → Scanned fin n d ((opcode, data) :: evs) d'

/-- The bytes of the records. -/
def weight (evs : List (UInt8 × Bytes)) : Nat := (evs.map fun p => 9 + p.2.length).sum

@[simp] theorem weight_cons (opcode : UInt8) (data : Bytes) (evs : List (UInt8 × Bytes)) :
    weight ((opcode, data) :: evs) = 9 + data.length + weight evs := rfl

variable {evs : List (UInt8 × Bytes)}

/-- **The scan of what the reader shows.** -/
theorem scanLoop_settles_iff {r : LinearReader δ} {rest : Bytes} {fin : Final}
    (h : Observes D r rest evs fin) (hfin : fin ≠ .panicked) {n : Nat}
    (hn : n + weight evs < 2 ^ 64) {d d' : Doctor} :
    Progress.Settles (scanLoop D · r rest n d) (.done d') ↔ Scanned D fin n d evs d' := by
  induction h generalizing n d d' with
  | @record r r' rest opcode data evs fin hr _ ih =>
    obtain ⟨N, hN⟩ := hr
    rw [weight_cons] at hn
    have hstep : ∀ fuel, N ≤ fuel → scanLoop D (fuel + 1) r rest n d =
        (d.scanRecord D fuel (.ofNat n) opcode data).bind
          (scanLoop D fuel r' rest (n + (9 + data.length))) := by
      intro fuel hfuel
      rw [scanLoop, hN (fuel + 1) (by omega)]
      exact if_neg (by omega)
    rw [Progress.settles_succ_iff hstep, Progress.settles_bind_iff (rising_scanRecord d (.ofNat n) opcode data)]
    constructor
    · rintro ⟨d₁, hd₁, hrest⟩
      exact .record hd₁ ((ih hfin (by omega)).mp hrest)
    · rintro (_ | ⟨hd₁, hrest⟩)
      exact ⟨_, hd₁, (ih hfin (by omega)).mpr hrest⟩
  | @request r r' need rest evs fin hr hall ih =>
    have hpos := LinearReader.request_pos hr
    have hlen : (rest.take (min need rest.length)).length ≤ min need rest.length := by
      rw [List.length_take]
      omega
    obtain ⟨r'', hfeed⟩ := LinearReader.exists_feed (r := r') hlen
    have hpiece : rest.take (min need rest.length) = [] → rest.drop (min need rest.length) = [] := by
      intro hnil
      rcases List.take_eq_nil_iff.mp hnil with hzero | rfl
      · rw [List.drop_eq_nil_iff]
        omega
      · exact List.drop_nil
    obtain ⟨N, hN⟩ := hr
    have hstep : ∀ fuel, N ≤ fuel → scanLoop D (fuel + 1) r rest n d =
        scanLoop D fuel r'' (rest.drop (min need rest.length)) n d := by
      intro fuel hfuel
      rw [scanLoop, hN (fuel + 1) (by omega)]
      simp only [hfeed]
    rw [Progress.settles_succ_iff hstep]
    exact ih (List.take_append_drop ..).symm hpiece hfeed hfin hn
  | fail hr =>
    obtain ⟨N, hN⟩ := hr
    rw [Progress.settles_succ_iff (y := fun _ => .done (d.afterScan (.failed _))) (N := N)
      fun fuel hfuel => by rw [scanLoop, hN (fuel + 1) (by omega)]; rfl, Progress.settles_const_iff]
    exact ⟨fun heq => by cases heq; exact .ended, fun hs => by cases hs; rfl⟩
  | done hr =>
    obtain ⟨N, hN⟩ := hr
    rw [Progress.settles_succ_iff (y := fun _ => .done (d.afterScan .finished)) (N := N)
      fun fuel hfuel => by rw [scanLoop, hN (fuel + 1) (by omega)]; rfl, Progress.settles_const_iff]
    exact ⟨fun heq => by cases heq; exact .ended, fun hs => by cases hs; rfl⟩
  | panic => exact absurd rfl hfin

theorem scanned_iff {fin : Final} {n : Nat} {d : Doctor} :
    (∃ d', Scanned D fin n d evs d') ↔ ∀ p ∈ evs, ScanReturns D p.1 p.2 := by
  induction evs generalizing n d with
  | nil => exact iff_of_true ⟨_, .ended⟩ (by simp)
  | cons p evs ih =>
    rw [List.forall_mem_cons, ← scanRecord_settles_iff (d := d) (.ofNat n)]
    constructor
    · rintro ⟨d', hs⟩
      cases hs with
      | record hd₁ hrest => exact ⟨⟨_, hd₁⟩, ih.mp ⟨_, hrest⟩⟩
    · rintro ⟨⟨d₁, hd₁⟩, hrest⟩
      obtain ⟨d', hd'⟩ := (ih (n := n + (9 + p.2.length)) (d := d₁)).mpr hrest
      exact ⟨d', .record hd₁ hd'⟩

/-- **The chunk indexes come from the records.** -/
theorem contains_scanned {fin : Final} {n : Nat} {d d' : Doctor} (h : Scanned D fin n d evs d')
    (k : UInt64) :
    d'.chunkIndexes.contains k = true ↔ d.chunkIndexes.contains k = true ∨
      ∃ p ∈ evs, ∃ index, parseRecord p.1 p.2 = .ok (.chunkIndex index) ∧ index.chunkStartOffset = k := by
  induction h with
  | ended =>
    unfold afterScan
    split <;> simp
  | record hd₁ _ ih =>
    obtain ⟨N, hN⟩ := hd₁
    rw [ih, contains_scanRecord (hN N (Nat.le_refl N)), or_assoc]
    simp only [List.mem_cons, exists_eq_or_imp]

/-! ## The bound of the scan -/

section
variable {o : LinearReaderOptions} {Δ : Decoding D o.recordLengthLimit}
  {s : Spec} {evs : List (UInt8 × Bytes)} {fin : Final}

/-- What is off the input of the record that is being read. -/
def begun : Phase → Nat
  | .dataEnd .. => OPCODE_LEN_SIZE
  | .footer .. => OPCODE_LEN_SIZE
  | _ => 0

/-- The rest of a scan does not panic, and its records fit what is left of the input. -/
def Bounded (s : Spec) (evs : List (UInt8 × Bytes)) (fin : Final) : Prop :=
  s.phase.top = true → fin ≠ .panicked ∧ weight evs ≤ s.bytes.length + begun s.phase

theorem bounded_nil (h : fin ≠ .panicked) : Bounded s [] fin := fun _ => ⟨h, Nat.zero_le _⟩

theorem atEof_ne_panicked (o : LinearReaderOptions) (s : Spec) : s.atEof o ≠ .panicked := by
  unfold Spec.atEof
  split <;> simp

theorem bounded_need {n : Nat} {t : SpecTurn} (h : Leads D Δ Bounded s evs fin (s.need n t))
    (ht : n ≤ s.bytes.length → Leads D Δ Bounded s evs fin t → Bounded s evs fin) :
    Bounded s evs fin := by
  unfold Spec.need at h
  split at h
  · obtain ⟨rfl, rfl⟩ := h
    exact bounded_nil (atEof_ne_panicked o s)
  · exact ht (by omega) h

theorem bounded_fail {e : McapError} (h : Leads D Δ Bounded s evs fin (.fail e)) : Bounded s evs fin := by
  obtain ⟨rfl, rfl⟩ := h
  exact bounded_nil (by simp)

theorem bounded_again {s' : Spec} (htop : s'.phase.top = true)
    (hless : s'.bytes.length + begun s'.phase ≤ s.bytes.length + begun s.phase)
    (h : Leads D Δ Bounded s evs fin (.again s')) : Bounded s evs fin := by
  intro _
  obtain ⟨hfin, hle⟩ := h htop
  exact ⟨hfin, hle.trans hless⟩

theorem bounded_record {opcode : UInt8} {data : Bytes} {s' : Spec} (htop : s'.phase.top = true)
    (hless : 9 + data.length + (s'.bytes.length + begun s'.phase) ≤ s.bytes.length + begun s.phase)
    (h : Leads D Δ Bounded s evs fin (.record opcode data s')) : Bounded s evs fin := by
  intro _
  obtain ⟨evs', rfl, h⟩ := h
  obtain ⟨hfin, hle⟩ := h htop
  rw [weight_cons]
  exact ⟨hfin, by omega⟩

variable {l : Nat} (hlimit : o.recordLengthLimit = some l) (hl : l ≤ ISIZE_MAX)

section
include hlimit hl

theorem bounded_fileRecord (hemit : o.emitChunks = true) (hp : s.phase = .fileRecord)
    (h : Leads D Δ Bounded s evs fin (s.fileRecord o)) : Bounded s evs fin := by
  unfold Spec.fileRecord at h
  refine bounded_need h fun h9 h => ?_
  simp only [hemit, Bool.not_true, Bool.false_eq_true, and_false, if_false] at h
  split at h
  · refine bounded_again rfl ?_ h
    simp only [hp, begun, List.length_drop]
    omega
  split at h
  · refine bounded_again rfl ?_ h
    simp only [hp, begun, List.length_drop]
    omega
  split at h
  · exact bounded_fail h
  · rename_i len hcheck
    have hle : len ≤ l := by
      rw [hlimit] at hcheck
      unfold checkLen at hcheck
      simp only at hcheck
      split at hcheck
      · cases hcheck
      · cases hcheck
        omega
    rw [if_neg (by simp only [ISIZE_MAX, USIZE_MAX, OPCODE_LEN_SIZE] at *; omega)] at h
    refine bounded_need h fun hlen h => bounded_record (by simp [Spec.skip, hp, Phase.top]) ?_ h
    simp only [Spec.skip, hp, begun, List.length_drop, List.length_take, OPCODE_LEN_SIZE] at *
    omega

end

theorem bounded_rest {opcode : UInt8} {n : Nat} {s' : Spec} (hp : begun s.phase = OPCODE_LEN_SIZE)
    (hn : n ≤ s.bytes.length) (htop : s'.phase.top = true) (hbegun : begun s'.phase = 0)
    (hbytes : s'.bytes = s.bytes.drop n)
    (h : Leads D Δ Bounded s evs fin (.record opcode (s.bytes.take n) s')) : Bounded s evs fin := by
  refine bounded_record htop ?_ h
  rw [hp, hbegun, hbytes, List.length_take, List.length_drop, OPCODE_LEN_SIZE]
  omega

theorem bounded_dataEnd {len : Nat} {calculated : Option UInt32} (hp : s.phase = .dataEnd len calculated)
    (h : Leads D Δ Bounded s evs fin (s.dataEnd o len calculated)) : Bounded s evs fin := by
  have hbegun : begun s.phase = OPCODE_LEN_SIZE := by rw [hp]; rfl
  unfold Spec.dataEnd at h
  split at h
  · exact bounded_fail h
  · refine bounded_need h fun hlen h => ?_
    split at h
    · exact bounded_fail h
    · dsimp only at h
      split at h
      · split at h
        · exact bounded_fail h
        · exact bounded_rest hbegun hlen rfl rfl rfl h
      · exact bounded_rest hbegun hlen rfl rfl rfl h

theorem bounded_footer {len : Nat} {hasher : Option Hasher} (hp : s.phase = .footer len hasher)
    (h : Leads D Δ Bounded s evs fin (s.footer o len hasher)) : Bounded s evs fin := by
  have hbegun : begun s.phase = OPCODE_LEN_SIZE := by rw [hp]; rfl
  unfold Spec.footer at h
  split at h
  · exact bounded_fail h
  · rename_i n _
    refine bounded_need h fun hlen h => ?_
    obtain ⟨herr, -⟩ := readLeFrom_takes Footer.takes_read (s.bytes.take n)
    split at h
    · exact bounded_fail h
    · rename_i footer c hread
      -- a footer that has been parsed has its twenty bytes
      have h20 : ¬ (s.bytes.take n).length < 16 := by
        intro hlt
        obtain ⟨e, he⟩ := herr (by omega)
        rw [he] at hread
        cases hread
      dsimp only at h
      split at h
      · exact bounded_rest hbegun hlen rfl rfl rfl h
      · rw [if_neg h20] at h
        split at h
        · exact bounded_fail h
        · exact bounded_rest hbegun hlen rfl rfl rfl h

include hlimit hl in
/-- **The scan stays in range**: it does not panic, and its records are in the input. -/
theorem scan_bound (hemit : o.emitChunks = true) (h : Parses D Δ s evs fin) : Bounded s evs fin := by
  refine Parses.elim D (fun {s evs fin} h htop => ?_) h
  refine (?_ : Bounded s evs fin) htop
  unfold Spec.turn at h
  rcases hp : s.phase <;> rw [hp] at htop <;> simp only [hp] at h
  case startMagic =>
    unfold Spec.startMagic at h
    split at h
    · exact bounded_again rfl (by rw [hp]; exact Nat.le_refl _) h
    · refine bounded_need h fun hlen h => ?_
      split at h
      · exact bounded_fail h
      · refine bounded_again rfl ?_ h
        simp only [Spec.skip, hp, begun, List.length_drop]
        omega
  case fileRecord => exact bounded_fileRecord hlimit hl hemit hp h
  case footer => exact bounded_footer hp h
  case dataEnd => exact bounded_dataEnd hp h
  case endMagic =>
    unfold Spec.endMagic at h
    split at h
    · obtain ⟨rfl, rfl⟩ := h
      exact bounded_nil (by simp)
    · refine bounded_need h fun hlen h => ?_
      split at h
      · refine bounded_again rfl ?_ h
        simp only [Spec.skip, hp, begun, List.length_drop]
        omega
      · exact bounded_fail h
  case afterEndMagic =>
    unfold Spec.afterEndMagic at h
    split at h
    · split at h
      · exact bounded_fail h
      · obtain ⟨rfl, rfl⟩ := h
        exact bounded_nil (atEof_ne_panicked o s)
    · obtain ⟨rfl, rfl⟩ := h
      exact bounded_nil (by simp)
  all_goals cases htop

end

theorem rising_scanLoop (D : Decompressor δ) (r : LinearReader δ) (rest : Bytes) (n : Nat) (d : Doctor) :
    Rising (scanLoop D · r rest n d) := by
  intro fuel
  induction fuel generalizing r rest n d with
  | zero => exact fun _ _ hne => absurd rfl hne
  | succ fuel ih =>
    rintro (_ | fuel') hle hne
    · omega
    · replace hne : scanLoop D (fuel + 1) r rest n d ≠ .spin := hne
      show scanLoop D (fuel' + 1) r rest n d = scanLoop D (fuel + 1) r rest n d
      rw [scanLoop] at hne
      rw [scanLoop, scanLoop]
      have hspin : r.nextEvent D (fuel + 1) ≠ .spin := by
        intro h
        rw [h] at hne
        exact hne rfl
      rw [LinearReader.nextEvent_mono hle hspin]
      clear hspin
      generalize r.nextEvent D (fuel + 1) = out at hne
      split
      case h_3 =>
        dsimp only at hne ⊢
        split
        · rfl
        · rename_i hfeed
          rw [hfeed] at hne
          exact ih _ _ _ _ fuel' (by omega) hne
      case h_4 =>
        dsimp only at hne ⊢
        split
        · rfl
        · rename_i hover
          rw [if_neg hover] at hne
          exact Progress.bind_stable (rising_scanRecord d _ _ _ fuel fuel' (by omega))
            (fun d₁ => ih _ _ _ d₁ fuel' (by omega)) hne
      all_goals rfl

/-- **What the scan sees.** -/
theorem exists_scan (D : Decompressor δ) {mcap : Bytes} (hlen : mcap.length ≤ ISIZE_MAX) :
    ∃ evs fin, Observes D (.newWithOptions (scanOptions mcap.length)) mcap evs fin ∧
      fin ≠ .panicked ∧ weight evs ≤ mcap.length := by
  have hi := intact_of_emitChunks (o := scanOptions mcap.length)
    (Δ := noDecoding D (scanOptions mcap.length).recordLengthLimit) rfl mcap
  obtain ⟨evs, fin, hp⟩ := parses_of_intact hi
  obtain ⟨hfin, hle⟩ := scan_bound rfl hlen rfl hp rfl
  exact ⟨evs, fin, observes_of_parses hp (sim_init _ mcap), hfin, hle⟩

/-! ## The chunk indexes of the summary -/

/-- **A record at an offset**: only the addition to the offset panics. -/
theorem readRecordAtOffset_done_iff (mcap : Bytes) (offset : UInt64) :
    (∃ raw, readRecordAtOffset mcap offset = .done raw) ↔ offset.toNat + 9 < 2 ^ 64 := by
  unfold readRecordAtOffset
  dsimp only
  by_cases hover : 2 ^ 64 ≤ offset.toNat + 9
  · rw [if_pos hover]
    exact iff_of_false (by simp) (by omega)
  · rw [if_neg hover]
    refine iff_of_true ?_ (by omega)
    by_cases hshort : mcap.length < offset.toNat + 9
    · exact ⟨_, if_pos hshort⟩
    · rw [if_neg hshort, List.getElem?_eq_getElem (by omega), sliceOf_eq (by omega) (by omega)]
      dsimp only
      split
      · exact ⟨_, rfl⟩
      · split
        · exact ⟨_, rfl⟩
        · rw [sliceOf_eq (by omega) (by omega)]
          exact ⟨_, rfl⟩

theorem checkIndexed_done (d : Doctor) (chunkOffset : UInt64) (index : ChunkIndex) (raw : RawRecordRef) :
    ∃ d', d.checkIndexed chunkOffset index raw = .done d' := by
  unfold checkIndexed
  split
  · exact ⟨_, rfl⟩
  · rename_i hopcode
    split
    · exact ⟨_, rfl⟩
    · have hreturns : parseRecord raw.opcode raw.body ≠ .panic := by
        rw [Ne, parseRecord_panics_iff, not_not.mp hopcode]
        exact fun h => absurd h.1 (by decide)
      split
      · exact ⟨_, rfl⟩
      · exact absurd ‹_› hreturns
      · exact ⟨_, rfl⟩

theorem validateChunkIndex_done_iff (mcap : Bytes) (d : Doctor) (chunkOffset : UInt64)
    (index : ChunkIndex) : (∃ d', d.validateChunkIndex mcap chunkOffset index = .done d') ↔
      chunkOffset.toNat + 9 < 2 ^ 64 := by
  rw [← readRecordAtOffset_done_iff mcap]
  unfold validateChunkIndex
  dsimp only
  constructor
  · rintro ⟨d', hd'⟩
    obtain ⟨raw, hraw, -⟩ := Progress.bind_eq_done.mp hd'
    exact ⟨raw, hraw⟩
  · rintro ⟨raw, hraw⟩
    rw [hraw, Progress.done_bind]
    split
    · exact checkIndexed_done ..
    · exact ⟨_, rfl⟩

theorem validateAll_done_iff (mcap : Bytes) (l : List (UInt64 × ChunkIndex)) (d : Doctor) :
    (∃ d', validateAll mcap l d = .done d') ↔ ∀ e ∈ l, e.1.toNat + 9 < 2 ^ 64 := by
  induction l generalizing d with
  | nil => exact iff_of_true ⟨d, rfl⟩ (by simp)
  | cons e l ih =>
    obtain ⟨chunkOffset, index⟩ := e
    rw [List.forall_mem_cons, ← validateChunkIndex_done_iff mcap d chunkOffset index, validateAll]
    constructor
    · rintro ⟨d', hd'⟩
      obtain ⟨d₁, hd₁, hrest⟩ := Progress.bind_eq_done.mp hd'
      exact ⟨⟨d₁, hd₁⟩, (ih d₁).mp ⟨d', hrest⟩⟩
    · rintro ⟨⟨d₁, hd₁⟩, hrest⟩
      rw [hd₁]
      exact (ih d₁).mpr hrest

theorem validateChunkIndexes_done_iff (mcap : Bytes) (d : Doctor) :
    (∃ d', d.validateChunkIndexes mcap = .done d') ↔
      ∀ k, d.chunkIndexes.contains k = true → k.toNat + 9 < 2 ^ 64 := by
  unfold validateChunkIndexes
  rw [validateAll_done_iff]
  constructor
  · intro h k hk
    obtain ⟨index, hindex⟩ := (BTreeMap.contains_iff _ k).mp hk
    exact h (k, index) (BTreeMap.mem_toList.mpr hindex)
  · rintro h ⟨k, index⟩ hmem
    exact h k ((BTreeMap.contains_iff _ k).mpr ⟨index, BTreeMap.mem_toList.mp hmem⟩)

end Doctor
end

/-! ## The whole diagnosis -/

section
variable {δ : Type} (D : Decompressor δ)

/-- The records that the doctor returns on. -/
structure RecordReturns (opcode : UInt8) (data : Bytes) : Prop where
  attachment : ¬ (opcode = op.ATTACHMENT ∧ EndsBeforeCrc data)
  chunk : ∀ header chunk, parseRecord opcode data = .ok (.chunk header chunk) → ChunkEnds D header chunk
  chunkIndex : ∀ index, parseRecord opcode data = .ok (.chunkIndex index) →
    index.chunkStartOffset.toNat + 9 < 2 ^ 64

variable {D} in
theorem diagnosis_settles_iff {mcap : Bytes} {evs : List (UInt8 × Bytes)} {fin : Final}
    (hlen : mcap.length ≤ ISIZE_MAX)
    (hobs : Observes D (.newWithOptions (scanOptions mcap.length)) mcap evs fin) (hfin : fin ≠ .panicked)
    (hweight : Doctor.weight evs ≤ mcap.length) (strict : Bool) :
    (∃ diagnosis, Progress.Settles (diagnoseMcap D · mcap strict) (.done diagnosis)) ↔
      ∀ p ∈ evs, RecordReturns D p.1 p.2 := by
  have hscan : ∀ d', Progress.Settles ((Doctor.new strict).scanTopLevel D · mcap) (.done d') ↔
      Doctor.Scanned D fin MAGIC.length (Doctor.new strict) evs d' := fun d' =>
    Doctor.scanLoop_settles_iff hobs hfin (by
      have hmagic : MAGIC.length = 8 := rfl
      simp only [ISIZE_MAX] at hlen
      omega)
  -- the new doctor has no chunk indexes, and so it has those of the records
  have hindexes : ∀ {d'}, Doctor.Scanned D fin MAGIC.length (Doctor.new strict) evs d' →
      ((∃ d₂, d'.finalizeRecordPresence.validateChunkIndexes mcap = .done d₂) ↔
        ∀ p ∈ evs, ∀ index, parseRecord p.1 p.2 = .ok (.chunkIndex index) →
          index.chunkStartOffset.toNat + 9 < 2 ^ 64) := by
    intro d' hd'
    rw [Doctor.validateChunkIndexes_done_iff, Doctor.chunkIndexes_finalizeRecordPresence]
    simp only [Doctor.contains_scanned hd', show (Doctor.new strict).chunkIndexes = ∅ from rfl,
      Std.ExtTreeMap.contains_empty, Bool.false_eq_true, false_or]
    exact ⟨fun h p hp index hindex => h _ ⟨p, hp, index, hindex, rfl⟩,
      fun h _ ⟨p, hp, index, hindex, hk⟩ => hk ▸ h p hp index hindex⟩
  unfold diagnoseMcap
  constructor
  · rintro ⟨diagnosis, hd⟩
    obtain ⟨d', hd', hrest⟩ := (Progress.settles_bind_iff
      (Doctor.rising_scanLoop D _ mcap _ _)).mp hd
    obtain ⟨d₂, hd₂, -⟩ := Progress.bind_eq_done.mp (Progress.settles_const_iff.mp hrest)
    have hscanned := (hscan d').mp hd'
    have hreturns := Doctor.scanned_iff.mp ⟨d', hscanned⟩
    have hwithin := (hindexes hscanned).mp ⟨d₂, hd₂⟩
    exact fun p hp => ⟨(hreturns p hp).1, (hreturns p hp).2, hwithin p hp⟩
  · intro h
    obtain ⟨d', hd'⟩ := Doctor.scanned_iff.mpr fun p hp => ⟨(h p hp).attachment, (h p hp).chunk⟩
    obtain ⟨d₂, hd₂⟩ := (hindexes hd').mpr fun p hp => (h p hp).chunkIndex
    refine ⟨d₂.validateStatistics.diagnosis, ((hscan d').mpr hd').bind ?_⟩
    rw [hd₂]
    exact .const _

end

/-- A chunk whose records end in the middle of a record header. -/
def midHeaderChunk : Bytes :=
  ChunkHeader.bytes
    { messageStartTime := 0
      messageEndTime := 0
      uncompressedSize := 1
      uncompressedCrc := 0
      compression := ""
      compressedSize := 1 } ++ [5]

/-- A file with such a chunk. -/
def midHeaderFile : Bytes :=
  MAGIC ++ frame op.CHUNK midHeaderChunk ++ frame op.DATA_END (List.replicate 4 0) ++
    frame op.FOOTER (List.replicate 20 0) ++ MAGIC

end Mcap

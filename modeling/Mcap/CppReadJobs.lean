import Mathlib.Algebra.Group.Nat.Defs
import Mathlib.Data.Prod.Lex
import Mathlib.Order.Defs.Unbundled
import Mathlib.Data.List.Pairwise

/-! # The read jobs of the C++ library

`IndexedMessageReader` keeps its jobs in a heap: to decompress a chunk, and to read a message of a
chunk that is decompressed (`read_job_queue.hpp`).  The heap compares them by time and then by
position, where a position in a chunk is compared with one in the file (`RecordOffset` of
`types.hpp` and `types.inl`).

`Queued` are the jobs that can be in the queue together: the heap may give out any of them.  Forward
the comparator is a strict weak order of these.  In reverse a chunk stands at the end of its message
indexes, and `operator<` is the negation of `operator>=`, which does not hold between a position in a
chunk and the same position in the file: then each of both is less than the other.
-/
namespace Mcap
namespace Cpp

/-! ## Positions -/

/-- `RecordOffset`. -/
structure RecordOffset where
  offset : UInt64
  chunkOffset : Option UInt64
deriving DecidableEq

namespace RecordOffset

/-- `operator==`. -/
def eq (a b : RecordOffset) : Bool :=
  match a.chunkOffset, b.chunkOffset with
  | some c, some d => if c ≠ d then false else a.offset = b.offset
  | some _, none => false
  | none, some _ => false
  | none, none => a.offset = b.offset

/-- `operator>`. -/
def gt (a b : RecordOffset) : Bool :=
  match a.chunkOffset, b.chunkOffset with
  | some c, some d => if c = d then b.offset < a.offset else d < c
  | some c, none => b.offset < c
  | none, some d => d < a.offset
  | none, none => b.offset < a.offset

/-- `operator>=`. -/
def ge (a b : RecordOffset) : Bool := a.eq b || a.gt b

/-- `operator<`. -/
def lt (a b : RecordOffset) : Bool := !a.ge b

end RecordOffset

/-! ## Jobs -/

/-- `ReadMessageJob`. -/
structure ReadMessageJob where
  timestamp : UInt64
  offset : RecordOffset
  chunkReaderIndex : Nat
deriving DecidableEq

/-- `DecompressChunkJob`. -/
structure DecompressChunkJob where
  messageStartTime : UInt64
  messageEndTime : UInt64
  chunkStartOffset : UInt64
  messageIndexEndOffset : UInt64
deriving DecidableEq

/-- `ReadJob`. -/
inductive ReadJob
  | readMessage (job : ReadMessageJob)
  | decompressChunk (job : DecompressChunkJob)
deriving DecidableEq

/-- `TimeComparisonKey`. -/
def timeComparisonKey (job : ReadJob) (reverse : Bool) : UInt64 :=
  match job with
  | .readMessage job => job.timestamp
  | .decompressChunk job => if reverse then job.messageEndTime else job.messageStartTime

/-- `PositionComparisonKey`. -/
def positionComparisonKey (job : ReadJob) (reverse : Bool) : RecordOffset :=
  match job with
  | .readMessage job => job.offset
  | .decompressChunk job =>
      ⟨if reverse then job.messageIndexEndOffset else job.chunkStartOffset, none⟩

/-- `CompareForward`. -/
def compareForward (a b : ReadJob) : Bool :=
  let aTimestamp := timeComparisonKey a false
  let bTimestamp := timeComparisonKey b false
  if aTimestamp = bTimestamp then
    (positionComparisonKey a false).gt (positionComparisonKey b false)
  else bTimestamp < aTimestamp

/-- `CompareReverse`. -/
def compareReverse (a b : ReadJob) : Bool :=
  let aTimestamp := timeComparisonKey a true
  let bTimestamp := timeComparisonKey b true
  if aTimestamp = bTimestamp then
    (positionComparisonKey a true).lt (positionComparisonKey b true)
  else aTimestamp < bTimestamp

/-! ## The queue of a reader -/

/-- `ChunkIndex`, as far as the reader uses it. -/
structure ChunkIndex where
  messageStartTime : UInt64
  messageEndTime : UInt64
  chunkStartOffset : UInt64
  chunkLength : UInt64
  messageIndexOffsets : List (UInt16 × UInt64)
  messageIndexLength : UInt64

/-- `MessageIndex`. -/
structure MessageIndex where
  channelId : UInt16
  records : List (UInt64 × UInt64)

/-- A chunk of a file, with the message indexes behind it. -/
structure IndexedChunk where
  index : ChunkIndex
  messageIndexes : List MessageIndex

/-- The job to decompress a chunk. -/
def decompressChunkJob (idx : ChunkIndex) : DecompressChunkJob where
  messageStartTime := idx.messageStartTime
  messageEndTime := idx.messageEndTime
  chunkStartOffset := idx.chunkStartOffset
  messageIndexEndOffset := idx.chunkStartOffset + idx.chunkLength + idx.messageIndexLength

/-- The options of an `IndexedMessageReader`, and the channels that it selected. -/
structure Selection where
  startTime : UInt64
  endTime : UInt64
  selectedChannels : List UInt16

/-- A chunk is to be read. -/
def Selection.wants (o : Selection) (idx : ChunkIndex) : Bool :=
  !(decide (o.endTime ≤ idx.messageStartTime)) && !(decide (idx.messageEndTime < o.startTime)) &&
    o.selectedChannels.any fun channelId => idx.messageIndexOffsets.any fun e => e.1 = channelId

/-- The jobs to read the messages of a chunk, which is in a slot. -/
def Selection.messageJobs (o : Selection) (chunkReaderIndex : Nat) (c : IndexedChunk) :
    List ReadMessageJob :=
  c.messageIndexes.flatMap fun messageIndex =>
    if o.selectedChannels.contains messageIndex.channelId then
      (messageIndex.records.filter fun r => o.startTime ≤ r.1 ∧ r.1 < o.endTime).map fun r =>
        ⟨r.1, ⟨r.2, some c.index.chunkStartOffset⟩, chunkReaderIndex⟩
    else []

/-- The end of a chunk and of its message indexes. -/
def IndexedChunk.endOffset (c : IndexedChunk) : Nat :=
  c.index.chunkStartOffset.toNat + c.index.chunkLength.toNat + c.index.messageIndexLength.toNat

/-- The entries of the message indexes: log times and offsets of messages. -/
def IndexedChunk.entries (c : IndexedChunk) : List (UInt64 × UInt64) :=
  c.messageIndexes.flatMap MessageIndex.records

/-- The chunks of a valid file, in the order of their indexes.  Chunks with their message indexes
do not overlap, but one may begin where another ends; and a chunk index bounds the times. -/
structure IndexedFile where
  chunks : List IndexedChunk
  nonempty : ∀ c ∈ chunks, 0 < c.index.chunkLength.toNat
  fits : ∀ c ∈ chunks, c.endOffset < 2 ^ 64
  disjoint : chunks.Pairwise fun c d =>
    c.endOffset ≤ d.index.chunkStartOffset.toNat ∨ d.endOffset ≤ c.index.chunkStartOffset.toNat
  bounded : ∀ c ∈ chunks, ∀ e ∈ c.entries,
    c.index.messageStartTime ≤ e.1 ∧ e.1 ≤ c.index.messageEndTime

/-- **The jobs that can be in the queue together.**  The heap may give out any of them. -/
inductive Queued (f : IndexedFile) (o : Selection) : List ReadJob → Prop
  | init : Queued f o ((f.chunks.filter fun c => o.wants c.index).map fun c =>
      .decompressChunk (decompressChunkJob c.index))
  | decompressed {q rest c} (chunkReaderIndex : Nat) : Queued f o q → c ∈ f.chunks →
      q.Perm (.decompressChunk (decompressChunkJob c.index) :: rest) →
      Queued f o (rest ++ (o.messageJobs chunkReaderIndex c).map .readMessage)
  | read {q rest job} : Queued f o q → q.Perm (.readMessage job :: rest) → Queued f o rest

/-! ### What is in the queue -/

/-- The job to decompress a chunk, if it is one. -/
def ReadJob.chunk? : ReadJob → Option DecompressChunkJob
  | readMessage _ => none
  | decompressChunk job => some job

section
variable {f : IndexedFile} {o : Selection} {q rest : List ReadJob} {c : IndexedChunk}

theorem mem_messageJobs {chunkReaderIndex : Nat} {m : ReadMessageJob}
    (h : m ∈ o.messageJobs chunkReaderIndex c) :
    m.offset.chunkOffset = some c.index.chunkStartOffset ∧
      (m.timestamp, m.offset.offset) ∈ c.entries := by
  obtain ⟨messageIndex, hindex, hm⟩ := List.mem_flatMap.mp h
  split at hm
  · obtain ⟨r, hr, rfl⟩ := List.mem_map.mp hm
    exact ⟨rfl, List.mem_flatMap.mpr ⟨messageIndex, hindex, (List.mem_filter.mp hr).1⟩⟩
  · cases hm

theorem toNat_endOffset (hc : c ∈ f.chunks) :
    (decompressChunkJob c.index).messageIndexEndOffset.toNat = c.endOffset := by
  have hfits := f.fits c hc
  unfold IndexedChunk.endOffset at hfits ⊢
  show (c.index.chunkStartOffset + c.index.chunkLength + c.index.messageIndexLength).toNat = _
  rw [UInt64.toNat_add, UInt64.toNat_add]
  omega

theorem start_lt_end (hc : c ∈ f.chunks) :
    c.index.chunkStartOffset.toNat < c.endOffset := by
  have hpos := f.nonempty c hc
  unfold IndexedChunk.endOffset
  omega

/-- One of two chunks ends in front of the other. -/
def Apart (c d : IndexedChunk) : Prop :=
  c.endOffset ≤ d.index.chunkStartOffset.toNat ∨ d.endOffset ≤ c.index.chunkStartOffset.toNat

theorem Apart.symm {d : IndexedChunk} (h : Apart c d) : Apart d c := Or.symm h

instance : Std.Symm Apart := ⟨fun _ _ => Apart.symm⟩

theorem decompressChunkJob_inj {d : IndexedChunk} (hc : c ∈ f.chunks) (hd : d ∈ f.chunks)
    (h : Apart c d) : decompressChunkJob c.index ≠ decompressChunkJob d.index := by
  intro heq
  have hstart : c.index.chunkStartOffset = d.index.chunkStartOffset :=
    congrArg DecompressChunkJob.chunkStartOffset heq
  have hc' := start_lt_end hc
  have hd' := start_lt_end hd
  unfold Apart at h
  rw [hstart] at hc' h
  omega

/-- **A queue is consistent**: the chunks that are to be decompressed are different ones, and its
messages are of other chunks. -/
structure Consistent (f : IndexedFile) (q : List ReadJob) (pending : List IndexedChunk) : Prop where
  sublist : pending.Sublist f.chunks
  chunks : (q.filterMap ReadJob.chunk?).Perm (pending.map fun c => decompressChunkJob c.index)
  messages : ∀ m, .readMessage m ∈ q → ∃ c ∈ f.chunks,
    (∀ d ∈ pending, Apart c d) ∧ m.offset.chunkOffset = some c.index.chunkStartOffset ∧
    (m.timestamp, m.offset.offset) ∈ c.entries

theorem consistent_init : Consistent f ((f.chunks.filter fun c => o.wants c.index).map fun c =>
    .decompressChunk (decompressChunkJob c.index)) (f.chunks.filter fun c => o.wants c.index) where
  sublist := List.filter_sublist
  chunks := by
    rw [List.filterMap_map]
    have hsome : (ReadJob.chunk? ∘ fun c : IndexedChunk =>
        ReadJob.decompressChunk (decompressChunkJob c.index)) =
        some ∘ fun c => decompressChunkJob c.index := rfl
    rw [hsome, List.filterMap_eq_map]
  messages m hm := by
    obtain ⟨c, -, hc⟩ := List.mem_map.mp hm
    cases hc

theorem Consistent.perm {q' : List ReadJob} {pending : List IndexedChunk}
    (h : Consistent f q pending) (hperm : q.Perm q') : Consistent f q' pending where
  sublist := h.sublist
  chunks := (hperm.symm.filterMap _).trans h.chunks
  messages m hm := h.messages m (hperm.mem_iff.mpr hm)

/-- **A chunk that is decompressed** is not pending any more, and its messages are. -/
theorem Consistent.decompressed {pending : List IndexedChunk} (hc : c ∈ f.chunks)
    (h : Consistent f (.decompressChunk (decompressChunkJob c.index) :: rest) pending)
    (chunkReaderIndex : Nat) : ∃ pending',
      Consistent f (rest ++ (o.messageJobs chunkReaderIndex c).map .readMessage) pending' := by
  have hmem : decompressChunkJob c.index ∈ pending.map fun c => decompressChunkJob c.index :=
    h.chunks.mem_iff.mp List.mem_cons_self
  obtain ⟨d, hd, hjob⟩ := List.mem_map.mp hmem
  have hdc : d = c := by
    by_contra hne
    have happart := List.Pairwise.forall (R := Apart) f.disjoint (h.sublist.mem hd) hc hne
    exact decompressChunkJob_inj (h.sublist.mem hd) hc happart hjob
  subst hdc
  obtain ⟨before, after, rfl⟩ := List.append_of_mem hd
  have hmid : (before ++ d :: after).Perm (d :: (before ++ after)) := List.perm_middle
  have happart : ∀ x ∈ before ++ after, Apart d x := by
    have hpairs : (before ++ d :: after).Pairwise Apart := f.disjoint.sublist h.sublist
    rw [hmid.pairwise_iff Apart.symm] at hpairs
    exact fun x hx => List.rel_of_pairwise_cons hpairs hx
  refine ⟨before ++ after, ?_, ?_, fun m hm => ?_⟩
  · exact (List.Sublist.append_left (List.sublist_cons_self d after) before).trans h.sublist
  · have hnone : ((o.messageJobs chunkReaderIndex d).map ReadJob.readMessage).filterMap
        ReadJob.chunk? = [] := by
      rw [List.filterMap_map]
      exact List.filterMap_eq_nil_iff.mpr fun _ _ => rfl
    have hjobs := h.chunks.trans (hmid.map fun c => decompressChunkJob c.index)
    rw [List.filterMap_append, hnone, List.append_nil]
    exact (List.perm_cons _).mp hjobs
  · rcases List.mem_append.mp hm with hold | hnew
    · obtain ⟨c, hcf, hapart, hoffset, hentry⟩ := h.messages m (List.mem_cons_of_mem _ hold)
      exact ⟨c, hcf, fun x hx => hapart x (hmid.mem_iff.mpr (List.mem_cons_of_mem _ hx)), hoffset,
        hentry⟩
    · obtain ⟨job, hjob, heq⟩ := List.mem_map.mp hnew
      cases heq
      obtain ⟨hoffset, hentry⟩ := mem_messageJobs hjob
      exact ⟨d, hc, happart, hoffset, hentry⟩

/-- **Every queue is consistent.** -/
theorem Queued.consistent (h : Queued f o q) : ∃ pending, Consistent f q pending := by
  induction h with
  | init => exact ⟨_, consistent_init⟩
  | decompressed chunkReaderIndex _ hc hperm ih =>
    obtain ⟨pending, hconsistent⟩ := ih
    exact (hconsistent.perm hperm).decompressed hc chunkReaderIndex
  | @read q rest job _ hperm ih =>
    obtain ⟨pending, hconsistent⟩ := ih
    have hcons := hconsistent.perm hperm
    exact ⟨pending, hcons.sublist, hcons.chunks, fun m hm =>
      hcons.messages m (List.mem_cons_of_mem _ hm)⟩

end

/-! ## Comparators -/

/-- **A strict weak ordering** of the elements of a list, which `std::push_heap` and `std::pop_heap`
require. -/
structure StrictWeakOrdering {α : Type*} (comp : α → α → Bool) (s : List α) : Prop where
  irrefl : ∀ a ∈ s, comp a a = false
  asymm : ∀ a ∈ s, ∀ b ∈ s, comp a b = true → comp b a = false
  trans : ∀ a ∈ s, ∀ b ∈ s, ∀ c ∈ s, comp a b = true → comp b c = true → comp a c = true
  incomp_trans : ∀ a ∈ s, ∀ b ∈ s, ∀ c ∈ s, (comp a b = false ∧ comp b a = false) →
    (comp b c = false ∧ comp c b = false) → comp a c = false ∧ comp c a = false

theorem StrictWeakOrdering.of_key {α κ : Type*} [LinearOrder κ] {comp : α → α → Bool} {s : List α}
    (key : α → κ) (hkey : ∀ a ∈ s, ∀ b ∈ s, comp a b = true ↔ key a < key b) :
    StrictWeakOrdering comp s := by
  have hfalse : ∀ a ∈ s, ∀ b ∈ s, comp a b = false ↔ key b ≤ key a := fun a ha b hb => by
    rw [← Bool.not_eq_true, hkey a ha b hb, not_lt]
  refine ⟨fun a ha => ?_, fun a ha b hb hab => ?_, fun a ha b hb c hc hab hbc => ?_,
    fun a ha b hb c hc hab hbc => ?_⟩
  · exact (hfalse a ha a ha).mpr le_rfl
  · exact (hfalse b hb a ha).mpr ((hkey a ha b hb).mp hab).le
  · exact (hkey a ha c hc).mpr (((hkey a ha b hb).mp hab).trans ((hkey b hb c hc).mp hbc))
  · rw [hfalse a ha b hb, hfalse b hb a ha] at hab
    rw [hfalse b hb c hc, hfalse c hc b hb] at hbc
    rw [hfalse a ha c hc, hfalse c hc a ha]
    exact ⟨hbc.1.trans hab.1, hab.2.trans hbc.2⟩

/-- Where a message stands: its time, then its chunk in the file, then its offset in the chunk. -/
def messageKey (timestamp chunkOffset offset : UInt64) : ℕ ×ₗ ℕ ×ₗ ℕ :=
  toLex (timestamp.toNat, toLex (chunkOffset.toNat, offset.toNat))

theorem messageKey_lt {t c o t' c' o' : UInt64} : messageKey t c o < messageKey t' c' o' ↔
    t < t' ∨ t = t' ∧ (c < c' ∨ c = c' ∧ o < o') := by
  simp only [messageKey, Prod.Lex.toLex_lt_toLex, UInt64.lt_iff_toNat_lt, UInt64.toNat_inj]

/-- The key of a job: a chunk stands in front of the messages of the chunk that begins at its own
position. -/
def jobKey (reverse : Bool) : ReadJob → ℕ ×ₗ ℕ ×ₗ ℕ
  | .readMessage job =>
      messageKey job.timestamp (job.offset.chunkOffset.getD job.offset.offset) job.offset.offset
  | .decompressChunk job =>
      messageKey (timeComparisonKey (.decompressChunk job) reverse)
        (positionComparisonKey (.decompressChunk job) reverse).offset 0

/-- **The comparators are as `std::push_heap` and `std::pop_heap` require**, and a chunk that is to
be decompressed never ranks after a message that its own messages rank before. -/
structure ComparatorsSound (f : IndexedFile) (q : List ReadJob) : Prop where
  forward : StrictWeakOrdering compareForward q
  reverse : StrictWeakOrdering compareReverse q
  ranksForward : ∀ c ∈ f.chunks, .decompressChunk (decompressChunkJob c.index) ∈ q →
    ∀ m chunkOffset, .readMessage m ∈ q → m.offset.chunkOffset = some chunkOffset →
    (∃ e ∈ c.entries, messageKey e.1 c.index.chunkStartOffset e.2 <
      messageKey m.timestamp chunkOffset m.offset.offset) →
    compareForward (.decompressChunk (decompressChunkJob c.index)) (.readMessage m) = false
  ranksReverse : ∀ c ∈ f.chunks, .decompressChunk (decompressChunkJob c.index) ∈ q →
    ∀ m chunkOffset, .readMessage m ∈ q → m.offset.chunkOffset = some chunkOffset →
    (∃ e ∈ c.entries, messageKey m.timestamp chunkOffset m.offset.offset <
      messageKey e.1 c.index.chunkStartOffset e.2) →
    compareReverse (.decompressChunk (decompressChunkJob c.index)) (.readMessage m) = false

/-- Some chunk of the queue ends, in time and in the file, where a loaded message and its chunk
stand. -/
def Touching (q : List ReadJob) : Prop :=
  ∃ d m, .decompressChunk d ∈ q ∧ .readMessage m ∈ q ∧ d.messageEndTime = m.timestamp ∧
    m.offset.chunkOffset = some d.messageIndexEndOffset

section
variable {f : IndexedFile} {o : Selection} {q : List ReadJob} {pending : List IndexedChunk}
  {d : DecompressChunkJob} {m : ReadMessageJob}

theorem Consistent.pending_of_mem (h : Consistent f q pending)
    (hd : .decompressChunk d ∈ q) : ∃ c ∈ pending, decompressChunkJob c.index = d := by
  have hmem : d ∈ q.filterMap ReadJob.chunk? := List.mem_filterMap.mpr ⟨_, hd, rfl⟩
  exact List.mem_map.mp (h.chunks.mem_iff.mp hmem)

theorem Consistent.start_ne (h : Consistent f q pending) (hd : .decompressChunk d ∈ q)
    (hm : .readMessage m ∈ q) :
    m.offset.chunkOffset ≠ some d.chunkStartOffset := by
  obtain ⟨c, hc, rfl⟩ := h.pending_of_mem hd
  obtain ⟨c', hc', hapart, hoffset, -⟩ := h.messages m hm
  intro heq
  have hstart : c'.index.chunkStartOffset = c.index.chunkStartOffset :=
    Option.some.inj (hoffset.symm.trans heq)
  have hlt := start_lt_end hc'
  have hlt' := start_lt_end (h.sublist.mem hc)
  have happart := hapart c hc
  unfold Apart at happart
  rw [hstart] at hlt happart
  omega

theorem Consistent.chunkOffset (h : Consistent f q pending)
    (hm : .readMessage m ∈ q) : ∃ k, m.offset.chunkOffset = some k := by
  obtain ⟨c, -, -, hoffset, -⟩ := h.messages m hm
  exact ⟨_, hoffset⟩

theorem Consistent.compareForward_iff (h : Consistent f q pending) {a b : ReadJob} (ha : a ∈ q)
    (hb : b ∈ q) : compareForward a b = true ↔ jobKey false b < jobKey false a := by
  cases a with
  | readMessage m =>
    obtain ⟨k, hk⟩ := h.chunkOffset ha
    cases b with
    | readMessage m' =>
      obtain ⟨k', hk'⟩ := h.chunkOffset hb
      simp only [compareForward, timeComparisonKey, positionComparisonKey, jobKey, RecordOffset.gt,
        messageKey_lt, hk, hk', Option.getD_some]
      grind
    | decompressChunk d =>
      have hne := h.start_ne hb ha
      simp only [compareForward, timeComparisonKey, positionComparisonKey, jobKey, RecordOffset.gt,
        messageKey_lt, hk, Option.getD_some]
      grind
  | decompressChunk d =>
    cases b with
    | readMessage m =>
      obtain ⟨k, hk⟩ := h.chunkOffset hb
      have hne := h.start_ne ha hb
      simp only [compareForward, timeComparisonKey, positionComparisonKey, jobKey, RecordOffset.gt,
        messageKey_lt, hk, Option.getD_some]
      grind
    | decompressChunk d' =>
      simp only [compareForward, timeComparisonKey, positionComparisonKey, jobKey, RecordOffset.gt,
        messageKey_lt]
      grind

theorem Consistent.compareReverse_iff (h : Consistent f q pending) (htouch : ¬Touching q)
    {a b : ReadJob} (ha : a ∈ q) (hb : b ∈ q) :
    compareReverse a b = true ↔ jobKey true a < jobKey true b := by
  -- The position of a chunk is its end: it equals that of a message only if the times differ.
  have hne : ∀ d m, .decompressChunk d ∈ q → .readMessage m ∈ q →
      d.messageEndTime = m.timestamp → m.offset.chunkOffset ≠ some d.messageIndexEndOffset :=
    fun d m hd hm htime heq => htouch ⟨d, m, hd, hm, htime, heq⟩
  cases a with
  | readMessage m =>
    obtain ⟨k, hk⟩ := h.chunkOffset ha
    cases b with
    | readMessage m' =>
      obtain ⟨k', hk'⟩ := h.chunkOffset hb
      simp only [compareReverse, timeComparisonKey, positionComparisonKey, jobKey, RecordOffset.lt,
        RecordOffset.ge, RecordOffset.eq, RecordOffset.gt, messageKey_lt, hk, hk', Option.getD_some]
      grind
    | decompressChunk d =>
      have hends := hne d m hb ha
      simp only [compareReverse, timeComparisonKey, positionComparisonKey, jobKey, RecordOffset.lt,
        RecordOffset.ge, RecordOffset.eq, RecordOffset.gt, messageKey_lt, hk, Option.getD_some]
      grind
  | decompressChunk d =>
    cases b with
    | readMessage m =>
      obtain ⟨k, hk⟩ := h.chunkOffset hb
      have hends := hne d m ha hb
      simp only [compareReverse, timeComparisonKey, positionComparisonKey, jobKey, RecordOffset.lt,
        RecordOffset.ge, RecordOffset.eq, RecordOffset.gt, messageKey_lt, hk, Option.getD_some]
      grind
    | decompressChunk d' =>
      simp only [compareReverse, timeComparisonKey, positionComparisonKey, jobKey, RecordOffset.lt,
        RecordOffset.ge, RecordOffset.eq, RecordOffset.gt, messageKey_lt]
      grind

theorem compareReverse_touching (htime : d.messageEndTime = m.timestamp)
    (hoffset : m.offset.chunkOffset = some d.messageIndexEndOffset) :
    compareReverse (.decompressChunk d) (.readMessage m) = true ∧
      compareReverse (.readMessage m) (.decompressChunk d) = true := by
  simp [compareReverse, timeComparisonKey, positionComparisonKey, RecordOffset.lt, RecordOffset.ge,
    RecordOffset.eq, RecordOffset.gt, htime, hoffset]

/-- Forward, a chunk whose first time and position are in front of a message does not rank after
it. -/
theorem ranksForward {c : IndexedChunk} (hc : c ∈ f.chunks) {k : UInt64}
    (hk : m.offset.chunkOffset = some k) {e : UInt64 × UInt64} (he : e ∈ c.entries)
    (hlt : messageKey e.1 c.index.chunkStartOffset e.2 < messageKey m.timestamp k m.offset.offset) :
    compareForward (.decompressChunk (decompressChunkJob c.index)) (.readMessage m) = false := by
  have hstart : c.index.messageStartTime ≤ e.1 := (f.bounded c hc e he).1
  rw [messageKey_lt] at hlt
  simp only [compareForward, timeComparisonKey, positionComparisonKey, decompressChunkJob,
    RecordOffset.gt, hk]
  grind

theorem Consistent.ranksReverse (h : Consistent f q pending) {c : IndexedChunk} (hc : c ∈ f.chunks)
    (hq : .decompressChunk (decompressChunkJob c.index) ∈ q) {k : UInt64} (hm : .readMessage m ∈ q)
    (hk : m.offset.chunkOffset = some k) {e : UInt64 × UInt64} (he : e ∈ c.entries)
    (hlt : messageKey m.timestamp k m.offset.offset < messageKey e.1 c.index.chunkStartOffset e.2) :
    compareReverse (.decompressChunk (decompressChunkJob c.index)) (.readMessage m) = false := by
  have hend : e.1 ≤ c.index.messageEndTime := (f.bounded c hc e he).2
  have hne : k ≠ c.index.chunkStartOffset := by
    rintro rfl
    exact h.start_ne hq hm hk
  have hbefore : c.index.chunkStartOffset < (decompressChunkJob c.index).messageIndexEndOffset := by
    rw [UInt64.lt_iff_toNat_lt, toNat_endOffset hc]
    exact start_lt_end hc
  rw [messageKey_lt] at hlt
  simp only [compareReverse, timeComparisonKey, positionComparisonKey, RecordOffset.lt,
    RecordOffset.ge, RecordOffset.eq, RecordOffset.gt, hk]
  have htime : (decompressChunkJob c.index).messageEndTime = c.index.messageEndTime := rfl
  rw [htime]
  grind

/-- **The comparators of the queue are strict weak orderings, and never rank a chunk after a message
that its own messages must come before**, if and only if no chunk of the queue ends in time and in
the file where a loaded message and its chunk stand. -/
theorem comparatorsSound_iff (h : Queued f o q) : ComparatorsSound f q ↔ ¬Touching q := by
  obtain ⟨pending, hconsistent⟩ := h.consistent
  constructor
  · rintro hsound ⟨d, m, hd, hm, htime, hoffset⟩
    obtain ⟨hdm, hmd⟩ := compareReverse_touching htime hoffset
    have hfalse := hsound.reverse.asymm _ hd _ hm hdm
    rw [hmd] at hfalse
    cases hfalse
  · intro htouch
    refine ⟨?_, ?_, fun c hc _ m k _ hk => ?_, fun c hc hq m k hm hk => ?_⟩
    · exact .of_key (fun a => OrderDual.toDual (jobKey false a)) fun a ha b hb =>
        hconsistent.compareForward_iff ha hb
    · exact .of_key (jobKey true) fun a ha b hb => hconsistent.compareReverse_iff htouch ha hb
    · rintro ⟨e, he, hlt⟩
      exact Cpp.ranksForward hc hk he hlt
    · rintro ⟨e, he, hlt⟩
      exact hconsistent.ranksReverse hc hq hm hk he hlt

end

/-- A chunk of 100 bytes at a position, with one message and a message index of 31 bytes. -/
def adjacentChunk (start time : UInt64) : IndexedChunk where
  index := ⟨time, time, start, 100, [(1, start + 100)], 31⟩
  messageIndexes := [⟨1, [(time, 0)]⟩]

/-- Two chunks back to back: the second one has a message at time 5. -/
def adjacentChunks (time : UInt64) : IndexedFile where
  chunks := [adjacentChunk 8 time, adjacentChunk 139 5]
  nonempty := by simp [adjacentChunk]
  fits := by simp [adjacentChunk, IndexedChunk.endOffset]
  disjoint := by simp [adjacentChunk, IndexedChunk.endOffset]
  bounded := by simp [adjacentChunk, IndexedChunk.entries]

/-- When the second chunk is decompressed, the job of the first one is in the queue with a
message. -/
theorem queued_adjacentChunks {time : UInt64} (htime : time < 10) :
    Queued (adjacentChunks time) ⟨0, 10, [1]⟩
      [.decompressChunk (decompressChunkJob (adjacentChunk 8 time).index),
        .readMessage ⟨5, ⟨0, some 139⟩, 0⟩] := by
  have hwants : ∀ c ∈ (adjacentChunks time).chunks,
      Selection.wants ⟨0, 10, [1]⟩ c.index = true := by
    simp [adjacentChunks, Selection.wants, adjacentChunk, htime]
  have hinit := Queued.init (f := adjacentChunks time) (o := ⟨0, 10, [1]⟩)
  rw [List.filter_eq_self.mpr hwants] at hinit
  exact hinit.decompressed 0 (c := adjacentChunk 139 5) (by simp [adjacentChunks])
    (List.Perm.swap _ _ _)

/-- A queue with the second of two chunks: its message and the job of the first. -/
theorem comparatorsSound_apart : ComparatorsSound (adjacentChunks 6)
    [.decompressChunk (decompressChunkJob (adjacentChunk 8 6).index),
      .readMessage ⟨5, ⟨0, some 139⟩, 0⟩] :=
  (comparatorsSound_iff (queued_adjacentChunks (by decide))).mpr (by
    rintro ⟨d, m, hd, hm, htime, -⟩
    simp only [List.mem_cons, reduceCtorEq, ReadJob.decompressChunk.injEq,
      ReadJob.readMessage.injEq, List.not_mem_nil, or_false, false_or] at hd hm
    subst hd hm
    exact absurd htime (by decide))

/-- Both chunks have a message at time 5.  In reverse the second one is decompressed first. -/
theorem comparatorsSound_fails :
    compareReverse (.decompressChunk (decompressChunkJob (adjacentChunk 8 5).index))
      (.decompressChunk (decompressChunkJob (adjacentChunk 139 5).index)) = true ∧
    ¬∀ (f : IndexedFile) (o : Selection) (q : List ReadJob), Queued f o q →
      ComparatorsSound f q := by
  refine ⟨by decide, fun h => ?_⟩
  have hsound := h _ _ _ (queued_adjacentChunks (by decide : (5 : UInt64) < 10))
  have hfalse := hsound.reverse.asymm _ List.mem_cons_self _
    (List.mem_cons_of_mem _ List.mem_cons_self) (by decide)
  exact absurd hfalse (by decide)

end Cpp
end Mcap

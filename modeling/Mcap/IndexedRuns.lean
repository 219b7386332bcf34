import Mcap.IndexedSim
import Mathlib.Data.List.Pairwise

/-! # Completeness and order of the indexed reader

Over an indexed file the reader starts as a merge of the chunks it uses, and those
it leaves out hold nothing that was asked for (`refines_new`, `left_new`).  What the
merge delivers is then what the reader delivers.
-/
namespace Mcap
open IndexedReader

variable {C : Codecs} {file : Bytes} {summary : Summary} {options : IndexedReaderOptions}

/-- Every chunk is within the length limit of the options, if there is one. -/
def IndexedFile.WithinLimit (F : IndexedFile C file summary) (options : IndexedReaderOptions) :
    Prop :=
  ∀ l, options.recordLengthLimit = some l → ∀ c ∈ F.chunks,
    c.1.compressed.length ≤ l ∧ (frames c.1.records).length ≤ l

/-- The included topics, if any are given, are those of some channel. -/
def TopicsMatch (summary : Summary) (options : IndexedReaderOptions) : Prop :=
  ∀ topics, options.includeTopics = some topics →
    ∃ (id : UInt16) (channel : Channel), summary.channels[id]? = some channel ∧ channel.topic ∈ topics

/-- The filter the reader is built with. -/
def filterOf (summary : Summary) (options : IndexedReaderOptions) : Filter where
  start := options.start
  stop := options.stop
  channelIds := channelIds summary options

/-- Every chunk that the reader uses is within the length limit. -/
def IndexedFile.UsedWithin (F : IndexedFile C file summary) (options : IndexedReaderOptions) :
    Prop :=
  ∀ l, options.recordLengthLimit = some l → ∀ c ∈ F.chunks,
    usesChunk (filterOf summary options) c.2 = true →
    c.1.compressed.length ≤ l ∧ (frames c.1.records).length ≤ l

theorem IndexedFile.WithinLimit.used {F : IndexedFile C file summary}
    (h : F.WithinLimit options) : F.UsedWithin options :=
  fun l hl c hc _ => h l hl c hc

/-! ## Selection -/

theorem mem_channelIds {topics : List String} (h : options.includeTopics = some topics)
    (id : UInt16) :
    id ∈ channelIds summary options ↔
      ∃ channel, summary.channels[id]? = some channel ∧ channel.topic ∈ topics := by
  rw [channelIds, h]
  simp only [List.mem_map, List.mem_filter, Prod.exists, exists_and_right, exists_eq_right,
    Std.ExtTreeMap.mem_toList_iff_getElem?_eq_some, List.contains_iff_mem]

theorem accepts_eq_selects (ht : TopicsMatch summary options) (header : MessageHeader) :
    Filter.accepts (filterOf summary options) header = selects summary options header := by
  have hids : ((filterOf summary options).channelIds.isEmpty ||
      (filterOf summary options).channelIds.contains header.channelId) =
      options.includeTopics.all fun topics =>
        (summary.channels[header.channelId]?).any fun channel => topics.contains channel.topic := by
    show ((channelIds summary options).isEmpty || (channelIds summary options).contains _) = _
    cases htopics : options.includeTopics with
    | none => simp [channelIds, htopics]
    | some topics =>
      obtain ⟨id, hid⟩ := ht topics htopics
      have hne : channelIds summary options ≠ [] :=
        List.ne_nil_of_mem ((mem_channelIds htopics id).mpr hid)
      rw [Bool.eq_iff_iff]
      simp [hne, mem_channelIds htopics, Option.any_eq_true]
  have hstart : (filterOf summary options).start = options.start := rfl
  have hstop : (filterOf summary options).stop = options.stop := rfl
  rw [Filter.accepts, hids, hstart, hstop, selects, Bool.eq_iff_iff]
  cases options.start <;> cases options.stop <;> simp [and_assoc, and_left_comm]

theorem entries_of_unused {c : Placed × ChunkIndex} (order : ReadOrder) (hc : c.1.IndexedBy C c.2)
    (hunused : usesChunk (filterOf summary options) c.2 = false) :
    (merge order (Filter.accepts (filterOf summary options))).entries c = [] := by
  refine List.filter_eq_nil_iff.mpr fun l hl hacc => ?_
  obtain ⟨hlo, hhi⟩ := hc.times l hl
  generalize filterOf summary options = f at hunused hacc
  rw [Filter.accepts] at hacc
  rw [usesChunk] at hunused
  -- the message passes each test of the filter, and the chunk fails one of them
  split at hacc
  · cases hacc
  rename_i hstop
  split at hacc
  · cases hacc
  rename_i hstart
  have h1 : ¬ f.start.any (fun start => c.2.messageEndTime < start) = true := by
    intro h
    obtain ⟨start, hs, hlt⟩ := (Option.any_eq_true _ _).mp h
    refine hstart ((Option.any_eq_true _ _).mpr ⟨start, hs, ?_⟩)
    rw [decide_eq_true_eq] at hlt ⊢
    exact UInt64.lt_of_le_of_lt hhi hlt
  have h2 : ¬ f.stop.any (fun stop => c.2.messageStartTime ≥ stop) = true := by
    intro h
    obtain ⟨stop, hs, hge⟩ := (Option.any_eq_true _ _).mp h
    refine hstop ((Option.any_eq_true _ _).mpr ⟨stop, hs, ?_⟩)
    rw [decide_eq_true_eq] at hge ⊢
    exact UInt64.le_trans hge hlo
  rw [if_neg h1, if_neg h2] at hunused
  split at hunused
  · cases hunused
  rename_i hids
  split at hunused
  · cases hunused
  rename_i hoffsets
  have hmem : f.channelIds.contains l.header.channelId = true := by simpa [hids] using hacc
  have hkey := (hc.offsets.resolve_left hoffsets) l hl
  rw [List.any_eq_false] at hunused
  exact hunused _ hkey hmem

/-! ## The reader at its start -/

theorem exists_perm_of_map {α β : Type} {f : α → β} {l : List α} {m : List β}
    (h : m.Perm (l.map f)) : ∃ l' : List α, l'.Perm l ∧ l'.map f = m := by
  have hf : List.Forall₂ (fun b a => b = f a) (l.map f) l :=
    List.forall₂_map_left_iff.mpr (List.forall₂_same.mpr fun _ _ => rfl)
  obtain ⟨l', hl', hperm⟩ := List.perm_comp_forall₂ h hf
  exact ⟨l', hperm, (List.forall₂_eq_eq_eq ▸ List.forall₂_map_right_iff.mpr hl' : m = l'.map f).symm⟩

theorem forM_ok {ε α : Type} {f : α → Except ε Unit} {l : List α} (h : ∀ x ∈ l, f x = .ok ()) :
    l.forM f = .ok () := by
  induction l with
  | nil => rfl
  | cons x l ih =>
    have hcons : (x :: l).forM f = (f x >>= fun _ => l.forM f) := rfl
    rw [hcons, h x List.mem_cons_self]
    exact ih fun y hy => h y (List.mem_cons_of_mem _ hy)

namespace IndexedFile
variable (F : IndexedFile C file summary) {c d : Placed × ChunkIndex}

theorem before_or (hc : c ∈ F.chunks) (hd : d ∈ F.chunks)
    (hne : c ≠ d) : c.1.start + c.1.bytes.length ≤ d.1.start ∨
      d.1.start + d.1.bytes.length ≤ c.1.start := by
  have hpair : F.chunks.Pairwise fun c d => c.1.start + c.1.bytes.length ≤ d.1.start ∨
      d.1.start + d.1.bytes.length ≤ c.1.start := by
    have h := pairwise_placed MAGIC.length F.items
    rw [← F.placed, List.pairwise_map] at h
    exact h.imp Or.inl
  have : Std.Symm fun c d : Placed × ChunkIndex => c.1.start + c.1.bytes.length ≤ d.1.start ∨
      d.1.start + d.1.bytes.length ≤ c.1.start := ⟨fun _ _ h => h.symm⟩
  exact hpair.forall hc hd hne

theorem start_lt_iff (hc : c ∈ F.chunks) (hd : d ∈ F.chunks) :
    c.1.start < d.1.start ↔ c.1.dataStart < d.1.dataStart := by
  by_cases hne : c = d
  · subst hne
    simp
  have hcle := c.1.dataStart_le
  have hdle := d.1.dataStart_le
  have hcd : c.1.start < c.1.dataStart := by simp only [Placed.dataStart]; omega
  have hdd : d.1.start < d.1.dataStart := by simp only [Placed.dataStart]; omega
  rcases F.before_or hc hd hne with h | h <;> omega

theorem dataStart_ne (hc : c ∈ F.chunks) (hd : d ∈ F.chunks)
    (hne : c ≠ d) : c.1.dataStart ≠ d.1.dataStart := by
  have hlt := F.start_lt_iff hc hd
  have hgt := F.start_lt_iff hd hc
  have hbytes : ∀ p : Placed, 0 < p.bytes.length := fun p => by
    rw [Placed.bytes, length_frame]
    omega
  have hc0 := hbytes c.1
  have hd0 := hbytes d.1
  rcases F.before_or hc hd hne with h | h <;> omega

theorem nodup_chunks : F.chunks.Nodup := by
  have h := pairwise_placed MAGIC.length F.items
  rw [← F.placed, List.pairwise_map] at h
  refine h.imp fun {c d} hlt heq => ?_
  rw [heq, Placed.bytes, length_frame] at hlt
  omega

theorem loadable {options : IndexedReaderOptions} (hl : F.UsedWithin options) (hc : c ∈ F.chunks)
    (hused : usesChunk (filterOf summary options) c.2 = true) :
    Loadable C file options.recordLengthLimit c := by
  have hi := F.indexed c hc
  have hmem : c.1 ∈ placedFrom MAGIC.length F.items := by
    rw [← F.placed]
    exact List.mem_map_of_mem hc
  obtain ⟨hle, rest, hrest⟩ := drop_placed hmem
  -- what stands in the file from the chunk on
  have hfile : file.drop c.1.start = c.1.bytes ++ (rest ++ F.rest) := by
    have hlen : c.1.start - MAGIC.length ≤ (F.items.flatMap Item.bytes).length := by
      by_contra hgt
      rw [List.drop_eq_nil_of_le (by omega)] at hrest
      exact absurd hrest.symm (by simp [Placed.bytes, frame])
    calc file.drop c.1.start
        = (MAGIC ++ F.items.flatMap Item.bytes ++ F.rest).drop c.1.start :=
          congrArg (List.drop c.1.start) F.file_eq
      _ = (F.items.flatMap Item.bytes ++ F.rest).drop (c.1.start - MAGIC.length) := by
          rw [List.append_assoc, List.drop_append, List.drop_eq_nil_of_le hle, List.nil_append]
      _ = c.1.bytes ++ (rest ++ F.rest) := by
          rw [List.drop_append_of_le_length hlen, hrest, List.append_assoc]
  have hdata : file.drop c.1.dataStart = c.1.compressed ++ (rest ++ F.rest) := by
    have hsplit : c.1.dataStart = c.1.start + (9 + c.1.header.bytes.length) := by
      rw [Placed.dataStart, Nat.add_assoc]
    rw [hsplit, ← List.drop_drop, hfile, Placed.bytes]
    have hframe : frame op.CHUNK (c.1.header.bytes ++ c.1.compressed) ++ (rest ++ F.rest) =
        (op.CHUNK :: le 8 (c.1.header.bytes ++ c.1.compressed).length ++ c.1.header.bytes) ++
          (c.1.compressed ++ (rest ++ F.rest)) := by
      simp [frame, List.append_assoc]
    rw [hframe, List.drop_append_of_le_length (by simp; omega),
      List.drop_eq_nil_of_le (by simp <;> omega), List.nil_append]
  have hstart : c.1.dataStart ≤ file.length := by
    have hlen := congrArg List.length hfile
    have hbytes : 0 < c.1.bytes.length := by
      rw [Placed.bytes, length_frame]
      omega
    have hcle := c.1.dataStart_le
    rw [List.length_drop, List.length_append] at hlen
    omega
  have hlt := F.length_lt
  have hsum : c.2.chunkStartOffset.toNat + (49 + (utf8 c.2.compression).length) =
      c.1.dataStart := by
    rw [hi.start, hi.compression, Placed.dataStart, ChunkHeader.length_bytes]
    omega
  refine ⟨⟨UInt64.ofNat c.1.dataStart, ?_, ?_⟩, ?_, hi.compressedSize.symm, ?_, ?_, ?_, ?_, ?_⟩
  · simp only [ChunkIndex.compressedDataOffset, hsum]
    exact if_pos (by omega)
  · exact UInt64.toNat_ofNat_of_lt' (by show _ < 2 ^ 64; omega)
  · rw [hdata, hi.compressedSize, List.take_left]
  · exact checkLen_of_le fun l hlim => by rw [hi.compressedSize]; exact (hl l hlim c hc hused).1
  · rw [hi.uncompressedSize, hi.decoded]
  · rw [← hi.uncompressedSize]
    exact c.2.uncompressedSize.toNat_lt
  · exact fun l hlim => (hl l hlim c hc hused).2
  · exact fun body hb => hi.messages _ hb rfl

/-! ## The chunks that are read -/

/-- The chunks that are read, in the order in which they are. -/
structure Plan (options : IndexedReaderOptions) (r : IndexedReader)
    (waiting : List (Placed × ChunkIndex)) : Prop where
  indexes : waiting.map Prod.snd = r.chunkIndexes
  perm : waiting.Perm (F.chunks.filter fun c => usesChunk (filterOf summary options) c.2)
  sorted : waiting.map Prod.snd =
    sortChunks options.order (summary.chunkIndexes.filter (usesChunk (filterOf summary options)))

theorem sortChunks_perm (order : ReadOrder) (cs : List ChunkIndex) :
    (sortChunks order cs).Perm cs := by
  cases order <;> exact List.perm_insertionSort _ _

/-- **The reader at its start** is the merge of the chunks it uses. -/
theorem refines_new {options : IndexedReaderOptions} (hl : F.UsedWithin options) :
    ∃ r waiting, newWithOptions summary options = .ok r ∧ F.Plan options r waiting ∧
      Refines C file options.order (filterOf summary options) options.recordLengthLimit r
        ⟨[], waiting⟩ := by
  have hperm : (sortChunks options.order
      (summary.chunkIndexes.filter (usesChunk (filterOf summary options)))).Perm
      ((F.chunks.filter fun c => usesChunk (filterOf summary options) c.2).map Prod.snd) := by
    refine (sortChunks_perm _ _).trans ?_
    have h := F.summary_perm.filter (usesChunk (filterOf summary options))
    rwa [List.filter_map] at h
  obtain ⟨waiting, hw, hmap⟩ := exists_perm_of_map hperm
  have hmem : ∀ c ∈ waiting, c ∈ F.chunks := fun c hc => List.mem_of_mem_filter (hw.subset hc)
  have hused : ∀ c ∈ waiting, usesChunk (filterOf summary options) c.2 = true := fun c hc =>
    (List.mem_filter.mp (hw.subset hc)).2
  have hload : ∀ i ∈ sortChunks options.order
      (summary.chunkIndexes.filter (usesChunk (filterOf summary options))),
      ∃ c ∈ waiting, c.2 = i ∧ Loadable C file options.recordLengthLimit c := by
    intro i hi
    rw [← hmap] at hi
    obtain ⟨c, hc, rfl⟩ := List.mem_map.mp hi
    exact ⟨c, hc, rfl, F.loadable hl (hmem c hc) (hused c hc)⟩
  have hoffsets : (summary.chunkIndexes.filter (usesChunk (filterOf summary options))).forM
      (fun c => discard c.compressedDataOffset) = .ok () := by
    refine forM_ok fun i hi => ?_
    obtain ⟨c, -, rfl, hc⟩ := hload i ((sortChunks_perm _ _).mem_iff.mpr hi)
    obtain ⟨off, hoff, -⟩ := hc.offset
    rw [hoff]
    rfl
  have hsizes : (sortChunks options.order
      (summary.chunkIndexes.filter (usesChunk (filterOf summary options)))).forM
      (checkSizes options.recordLengthLimit) = .ok () := by
    refine forM_ok fun i hi => ?_
    obtain ⟨c, hc, rfl, hcl⟩ := hload i hi
    have hun : checkLen c.2.uncompressedSize.toNat options.recordLengthLimit =
        some c.2.uncompressedSize.toNat :=
      checkLen_of_le fun l hlim => by
        rw [(F.indexed c (hmem c hc)).uncompressedSize]
        exact (hl l hlim c (hmem c hc) (hused c hc)).2
    rw [checkSizes, hcl.within, hun]
    rfl
  refine ⟨{
      chunkIndexes := waiting.map Prod.snd
      curChunkIndex := 0
      chunkSlots := []
      messageIndexes := []
      curMessageIndex := 0
      order := options.order
      filter := filterOf summary options
      recordLengthLimit := options.recordLengthLimit }, waiting, ?_, ⟨rfl, hw, hmap⟩,
    ⟨rfl, rfl, rfl, rfl, fun c hc => F.loadable hl (hmem c hc) (hused c hc), ?_, .nil, by simp⟩⟩
  · have hnew : newWithOptions summary options = (do
        (summary.chunkIndexes.filter (usesChunk (filterOf summary options))).forM
          (fun c => discard c.compressedDataOffset)
        (sortChunks options.order
          (summary.chunkIndexes.filter (usesChunk (filterOf summary options)))).forM
          (checkSizes options.recordLengthLimit)
        pure {
          chunkIndexes := sortChunks options.order
            (summary.chunkIndexes.filter (usesChunk (filterOf summary options)))
          curChunkIndex := 0
          chunkSlots := []
          messageIndexes := []
          curMessageIndex := 0
          order := options.order
          filter := filterOf summary options
          recordLengthLimit := options.recordLengthLimit }) := rfl
    rw [hnew, hoffsets, hsizes, ← hmap]
    rfl
  · have hnodup : waiting.Nodup := hw.nodup_iff.mpr (F.nodup_chunks.filter _)
    exact hnodup.imp_of_mem fun hc hd hne => F.dataStart_ne (hmem _ hc) (hmem _ hd) hne

variable {F} {options : IndexedReaderOptions} {r : IndexedReader}
  {waiting : List (Placed × ChunkIndex)}

theorem Plan.mem (h : F.Plan options r waiting) (hc : c ∈ waiting) :
    c ∈ F.chunks :=
  List.mem_of_mem_filter (h.perm.subset hc)

theorem Plan.left_accepted (h : F.Plan options r waiting) :
    ((merge options.order (Filter.accepts (filterOf summary options))).left ⟨[], waiting⟩).Perm
      (F.messages.filter fun l => Filter.accepts (filterOf summary options) l.header) := by
  have hall : (F.messages.filter fun l => Filter.accepts (filterOf summary options) l.header) =
      F.chunks.flatMap (merge options.order (Filter.accepts (filterOf summary options))).entries :=
    List.filter_flatMap
  have hused : ∀ cs : List (Placed × ChunkIndex), (∀ c ∈ cs, c ∈ F.chunks) →
      (cs.filter fun c => usesChunk (filterOf summary options) c.2).flatMap
        (merge options.order (Filter.accepts (filterOf summary options))).entries =
      cs.flatMap (merge options.order (Filter.accepts (filterOf summary options))).entries := by
    intro cs hcs
    induction cs with
    | nil => rfl
    | cons c cs ih =>
      have ih := ih fun d hd => hcs d (List.mem_cons_of_mem _ hd)
      rw [List.filter_cons]
      split
      · rw [List.flatMap_cons, List.flatMap_cons, ih]
      · rename_i hun
        rw [List.flatMap_cons, ih, entries_of_unused _ (F.indexed c (hcs c List.mem_cons_self))
          (by simpa using hun), List.nil_append]
  rw [hall, ← hused F.chunks fun _ => id]
  exact h.perm.flatMap_right _

/-- **Nothing that was asked for is left out.** -/
theorem Plan.left (h : F.Plan options r waiting) (ht : TopicsMatch summary options) :
    ((merge options.order (Filter.accepts (filterOf summary options))).left ⟨[], waiting⟩).Perm
      (F.selected options) := by
  have hsame : F.selected options =
      F.messages.filter fun l => Filter.accepts (filterOf summary options) l.header :=
    List.filter_congr fun l _ => (accepts_eq_selects ht l.header).symm
  rw [hsame]
  exact h.left_accepted

/-- The key by which an order sorts the chunks. -/
def loadKey (order : ReadOrder) (c : Placed × ChunkIndex) : ℤ ×ₗ ℤ :=
  match order with
  | .logTime => toLex (c.2.messageStartTime.toNat, c.1.start)
  | .reverseLogTime => toLex (-c.2.messageEndTime.toNat, -c.1.start)
  | .file => toLex (c.1.start, 0)

theorem Plan.pairwise (h : F.Plan options r waiting) :
    waiting.Pairwise fun c d => loadKey options.order c ≤ loadKey options.order d := by
  have hstart : ∀ c ∈ waiting, c.2.chunkStartOffset.toNat = c.1.start := fun c hc =>
    (F.indexed c (h.mem hc)).start
  have hsorted := h.sorted
  cases horder : options.order with
  | logTime =>
    rw [horder] at hsorted
    have hp := List.pairwise_insertionSort (fun a b : ChunkIndex =>
      toLex (a.messageStartTime.toNat, a.chunkStartOffset.toNat) ≤
        toLex (b.messageStartTime.toNat, b.chunkStartOffset.toNat))
      (summary.chunkIndexes.filter (usesChunk (filterOf summary options)))
    rw [show List.insertionSort _ _ = waiting.map Prod.snd from hsorted.symm,
      List.pairwise_map] at hp
    refine hp.imp_of_mem fun {c d} hc hd hle => ?_
    rw [hstart c hc, hstart d hd] at hle
    simp only [loadKey, Prod.Lex.toLex_le_toLex] at hle ⊢
    omega
  | reverseLogTime =>
    rw [horder] at hsorted
    have hp := List.pairwise_insertionSort (fun a b : ChunkIndex =>
      toLex (b.messageEndTime.toNat, b.chunkStartOffset.toNat) ≤
        toLex (a.messageEndTime.toNat, a.chunkStartOffset.toNat))
      (summary.chunkIndexes.filter (usesChunk (filterOf summary options)))
    rw [show List.insertionSort _ _ = waiting.map Prod.snd from hsorted.symm,
      List.pairwise_map] at hp
    refine hp.imp_of_mem fun {c d} hc hd hle => ?_
    rw [hstart c hc, hstart d hd] at hle
    simp only [loadKey, Prod.Lex.toLex_le_toLex] at hle ⊢
    omega
  | file =>
    rw [horder] at hsorted
    have hp := List.pairwise_insertionSort (fun a b : ChunkIndex =>
      a.chunkStartOffset.toNat ≤ b.chunkStartOffset.toNat)
      (summary.chunkIndexes.filter (usesChunk (filterOf summary options)))
    rw [show List.insertionSort _ _ = waiting.map Prod.snd from hsorted.symm,
      List.pairwise_map] at hp
    refine hp.imp_of_mem fun {c d} hc hd hle => ?_
    rw [hstart c hc, hstart d hd] at hle
    simp only [loadKey, Prod.Lex.toLex_le_toLex]
    omega

theorem chunkBound_le (order : ReadOrder) (hc : c ∈ F.chunks) {l : Located}
    (hl : l ∈ c.1.messages) : chunkBound order c ≤ l.time order := by
  obtain ⟨hlo, hhi⟩ := (F.indexed c hc).times l hl
  rw [UInt64.le_iff_toNat_le] at hlo hhi
  cases order with
  | logTime => exact Int.ofNat_le.mpr hlo
  | reverseLogTime => exact Int.neg_le_neg (Int.ofNat_le.mpr hhi)
  | file =>
    show (c.1.dataStart : ℤ) ≤ l.dataStart
    rw [(locate_dataStart hl).1]

theorem Plan.valid (h : F.Plan options r waiting) (accepts : MessageHeader → Bool) :
    (merge options.order accepts).Valid ⟨[], waiting⟩ := by
  refine ⟨.nil, ?_, fun c hc l hl => ?_⟩
  · refine h.pairwise.imp_of_mem fun {c d} hc hd hle => ?_
    show chunkBound options.order c ≤ chunkBound options.order d
    have hstart := F.start_lt_iff (h.mem hd) (h.mem hc)
    cases horder : options.order <;> rw [horder] at hle <;>
      simp only [loadKey, Prod.Lex.toLex_le_toLex] at hle <;> simp only [chunkBound] <;> omega
  · exact chunkBound_le options.order (h.mem hc) (List.mem_of_mem_filter hl)

end IndexedFile

/-! ## A file with two overlapping chunks -/

/-- The records of a chunk with messages at these log times. -/
def timesRecords (times : List UInt64) : List (UInt8 × Bytes) :=
  times.map fun t =>
    (op.MESSAGE, MessageHeader.bytes { channelId := 0, sequence := 0, logTime := t, publishTime := t })

/-- A chunk that is not compressed, with messages at these log times. -/
def timesChunk (start : Nat) (first last : UInt64) (times : List UInt64) : Placed × ChunkIndex :=
  let size := UInt64.ofNat (frames (timesRecords times)).length
  let placed : Placed :=
    { start
      header :=
        { messageStartTime := first, messageEndTime := last, uncompressedSize := size
          uncompressedCrc := 0, compression := "", compressedSize := size }
      compressed := frames (timesRecords times)
      records := timesRecords times }
  (placed,
    { messageStartTime := first, messageEndTime := last
      chunkStartOffset := UInt64.ofNat start
      chunkLength := UInt64.ofNat placed.bytes.length
      messageIndexOffsets := ∅, messageIndexLength := 0, compression := ""
      compressedSize := size, uncompressedSize := size })

/-- The first chunk has messages at 5 and 10, the second one at 1 and 5. -/
def overlapChunks : List (Placed × ChunkIndex) :=
  [timesChunk 8 5 10 [5, 10], timesChunk 119 1 5 [1, 5]]

def overlapItems : List Item :=
  overlapChunks.map fun c => .chunk c.1.header c.1.compressed c.1.records

def overlapFile : Bytes := MAGIC ++ overlapItems.flatMap Item.bytes

def overlapSummary : Summary where
  stats := none
  channels := ∅
  schemas := ∅
  chunkIndexes := overlapChunks.map Prod.snd
  attachmentIndexes := []
  metadataIndexes := []

/-- No compression library. -/
def noCodecs : Codecs where
  zstd _ _ := .error ""
  lz4 _ _ := .error ⟨0⟩
  lz4_length := by simp

def overlapIndexed : IndexedFile noCodecs overlapFile overlapSummary where
  items := overlapItems
  rest := []
  file_eq := (List.append_nil _).symm
  loose := by simp [overlapItems]
  length_lt := by decide +kernel
  chunks := overlapChunks
  placed := by decide +kernel
  indexed := by
    intro c hc
    have hcases : c = timesChunk 8 5 10 [5, 10] ∨ c = timesChunk 119 1 5 [1, 5] := by
      simpa [overlapChunks] using hc
    rcases hcases with rfl | rfl
    · exact ⟨by decide +kernel, by decide +kernel, rfl, by decide +kernel, by decide +kernel,
        by decide +kernel, by decide +kernel, by decide +kernel, .inl rfl⟩
    · exact ⟨by decide +kernel, by decide +kernel, rfl, by decide +kernel, by decide +kernel,
        by decide +kernel, by decide +kernel, by decide +kernel, .inl rfl⟩
  summary_perm := .refl _

/-! ## Completeness and order -/

theorem anyChunk_may {c : Placed × ChunkIndex} {waiting : List (Placed × ChunkIndex)}
    {off : UInt64} {answer : UInt64 × Nat} (_ : c.2.compressedDataOffset = .ok off)
    (h : anyChunk (off, c.2.compressedSize.toNat) ((c :: waiting).map Prod.snd) answer) :
    ∃ (i : Nat) (d : Placed × ChunkIndex), True ∧ (c :: waiting)[i]? = some d ∧
      d.2.compressedDataOffset = .ok answer.1 ∧ answer.2 = d.2.compressedSize.toNat := by
  obtain ⟨i, hi, hoff, hlen⟩ := h
  obtain ⟨d, hd, rfl⟩ := List.mem_map.mp hi
  obtain ⟨k, hk⟩ := List.getElem?_of_mem hd
  exact ⟨k, d, trivial, hk, hoff, hlen⟩

/-- How the messages of a run are ordered. -/
def Ordered (order : ReadOrder) (selected out : List Located) : Prop :=
  match order with
  | .logTime => out.Pairwise fun a b => a.header.logTime ≤ b.header.logTime
  | .reverseLogTime => out.Pairwise fun a b => b.header.logTime ≤ a.header.logTime
  | .file => out = selected

theorem IndexedFile.pairwise_selected (F : IndexedFile C file summary)
    (options : IndexedReaderOptions) :
    (F.selected options).Pairwise fun a b =>
      a.dataStart < b.dataStart ∨ a.dataStart = b.dataStart ∧ a.offset < b.offset := by
  refine List.Pairwise.filter _ ?_
  rw [IndexedFile.messages, List.pairwise_flatMap]
  refine ⟨fun c _ => ?_, ?_⟩
  · exact (pairwise_locate c.1.dataStart 0 c.1.records).imp_of_mem fun {a b} ha hb h =>
      .inr ⟨by rw [(locate_dataStart ha).1, (locate_dataStart hb).1], h⟩
  · have h := pairwise_placed MAGIC.length F.items
    rw [← F.placed, List.pairwise_map] at h
    refine h.imp fun {c d} hle a ha b hb => .inl ?_
    rw [(locate_dataStart ha).1, (locate_dataStart hb).1]
    have := c.1.dataStart_le
    simp only [Placed.dataStart] at this ⊢
    omega

theorem IndexedFile.eq_of_key (F : IndexedFile C file summary) {a b : Located}
    (ha : a ∈ F.selected options) (hb : b ∈ F.selected options) (hds : a.dataStart = b.dataStart)
    (hoff : a.offset = b.offset) : a = b := by
  by_contra hne
  have hpair := (F.pairwise_selected options).imp
    (fun {a b} h => (show ¬ (a.dataStart = b.dataStart ∧ a.offset = b.offset) by omega))
  have : Std.Symm fun a b : Located => ¬ (a.dataStart = b.dataStart ∧ a.offset = b.offset) :=
    ⟨fun a b h h' => h ⟨h'.1.symm, h'.2.symm⟩⟩
  exact hpair.forall ha hb hne ⟨hds, hoff⟩

theorem IndexedFile.eq_of_pairwise_key (F : IndexedFile C file summary) {order : ReadOrder}
    {out out' : List Located} (hp : out.Perm (F.selected options))
    (hp' : out'.Perm (F.selected options)) (hs : out.Pairwise fun a b => a.key order ≤ b.key order)
    (hs' : out'.Pairwise fun a b => a.key order ≤ b.key order) : out = out' := by
  refine (hp.trans hp'.symm).eq_of_pairwise (fun a b ha hb hab hba => ?_) hs hs'
  have hkey := le_antisymm hab hba
  refine F.eq_of_key (hp.subset ha) (hp'.subset hb) ?_ ?_ <;>
    cases order <;> simp [Located.key] at hkey <;> omega

/-- **Completeness and order.**  Whatever chunk that is not inserted yet a driver
answers a request with, the reader yields exactly the selected messages, each once
and in order, and ends. -/
theorem indexed_complete (F : IndexedFile C file summary) (options : IndexedReaderOptions)
    (hl : F.WithinLimit options) (ht : TopicsMatch summary options) :
    ∃ r, newWithOptions summary options = .ok r ∧
      Delivers C file anyChunk r fun out =>
        out.Perm (F.selected options) ∧ Ordered options.order (F.selected options) out := by
  obtain ⟨r, waiting, hnew, hplan, hr⟩ := F.refines_new hl.used
  refine ⟨r, hnew, ?_⟩
  have hvalid := hplan.valid (Filter.accepts (filterOf summary options))
  by_cases hfile : options.order = .file
  · -- in file order the bounds are the positions of the chunks, which all differ
    have hne : ∀ {c d : Placed × ChunkIndex}, c ∈ waiting → d ∈ waiting → c ≠ d →
        ∀ e ∈ (merge options.order (Filter.accepts (filterOf summary options))).entries c,
          ¬ (merge options.order (Filter.accepts (filterOf summary options))).Overtaken e d := by
      intro c d hc hd hcd e he hover
      have htime : e.time options.order = chunkBound options.order d := hover.1
      have hds := (locate_dataStart (List.mem_of_mem_filter he)).1
      simp only [hfile, Located.time, chunkBound] at htime
      exact F.dataStart_ne (hplan.mem hc) (hplan.mem hd) hcd (by omega)
    have hnodup : waiting.Nodup := hplan.perm.nodup_iff.mpr (F.nodup_chunks.filter _)
    refine delivers_of_merge (fun _ => True) anyChunk_may
      ((Merge.delivers_key time_le_of_key_le hvalid (by simp) ?_).mono fun out hout => ?_) hr
    · exact hnodup.imp_of_mem fun hc hd hcd => ⟨hne hc hd hcd, hne hd hc (Ne.symm hcd)⟩
    · have hperm := hout.1.trans (hplan.left ht)
      refine ⟨hperm, ?_⟩
      rw [hfile]
      refine F.eq_of_pairwise_key hperm (.refl _) hout.2 ((F.pairwise_selected options).imp ?_)
      intro a b h
      simp only [hfile, Located.key, Prod.Lex.toLex_le_toLex]
      omega
  · refine delivers_of_merge (fun _ => True) anyChunk_may
      ((Merge.delivers_sorted time_le_of_key_le hvalid).mono fun out hout => ?_) hr
    refine ⟨hout.1.trans (hplan.left ht), ?_⟩
    have hpair := hout.2
    cases horder : options.order with
    | logTime =>
      rw [horder] at hpair
      exact hpair.imp fun {a b} h => UInt64.le_iff_toNat_le.mpr (Int.ofNat_le.mp h)
    | reverseLogTime =>
      rw [horder] at hpair
      refine hpair.imp fun {a b} h => UInt64.le_iff_toNat_le.mpr ?_
      exact Int.ofNat_le.mp (Int.le_of_neg_le_neg h)
    | file => exact absurd horder hfile

theorem indexed_complete_overlap :
    ∃ r, newWithOptions overlapSummary {} = .ok r ∧
      Delivers noCodecs overlapFile anyChunk r fun out =>
        out.Perm (overlapIndexed.selected {}) ∧ Ordered .logTime (overlapIndexed.selected {}) out :=
  indexed_complete overlapIndexed {} (fun _ h => (by cases h)) fun _ h => (by cases h)

end Mcap

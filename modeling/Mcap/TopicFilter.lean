import Mcap.InsertErrors
import Mcap.IndexedTies

/-! # The topic filter of the indexed reader

`IndexedReaderOptions::include_topics` names the topics a caller wants.
`new_with_options` turns them into the ids of their channels, and the set of ids then
prunes chunks and selects messages.  But an empty set also stands for "no filter", so
topics that no channel is on select everything.

`next_event_accepted` says that a reader yields only what its filter accepts, over any
summary, any calls and any data; `topic_filter_iff` says what follows for topics.
-/
namespace Mcap
open IndexedReader

variable {C : Codecs} {file : Bytes} {summary : Summary} {options : IndexedReaderOptions}

/-- The summary knows the channel of the message, and its topic is among these. -/
def OnTopic (summary : Summary) (topics : List String) (header : MessageHeader) : Prop :=
  ∃ channel, summary.channels[header.channelId]? = some channel ∧ channel.topic ∈ topics

/-- The log time is within the bounds of the options. -/
def inBounds (options : IndexedReaderOptions) (header : MessageHeader) : Bool :=
  options.start.all (fun start => start ≤ header.logTime) &&
    options.stop.all fun stop => header.logTime < stop

/-! ## What a filter accepts -/

theorem accepts_iff (filter : Filter) (header : MessageHeader) :
    Filter.accepts filter header = true ↔
      filter.start.all (fun start => start ≤ header.logTime) = true ∧
      filter.stop.all (fun stop => header.logTime < stop) = true ∧
      (filter.channelIds = [] ∨ header.channelId ∈ filter.channelIds) := by
  rw [Filter.accepts]
  cases filter.start <;> cases filter.stop <;> simp [and_left_comm]

/-- **The ids of the topics**: there are none exactly if the topics match no channel. -/
theorem channelIds_eq_nil_iff {topics : List String} (h : options.includeTopics = some topics) :
    channelIds summary options = [] ↔ ¬ TopicsMatch summary options := by
  constructor
  · intro hnil hmatch
    obtain ⟨id, hid⟩ := hmatch topics h
    rw [← mem_channelIds h, hnil] at hid
    exact absurd hid List.not_mem_nil
  · intro hno
    rw [List.eq_nil_iff_forall_not_mem]
    intro id hid
    refine hno fun topics' h' => ?_
    cases h.symm.trans h'
    exact ⟨id, (mem_channelIds h id).mp hid⟩

/-- A message that the filter accepts is within the bounds, and it is on one of the
topics exactly if these match some channel. -/
theorem accepts_onTopic {topics : List String} (h : options.includeTopics = some topics)
    {header : MessageHeader} (hacc : Filter.accepts (filterOf summary options) header = true) :
    inBounds options header = true ∧
      (OnTopic summary topics header ↔ TopicsMatch summary options) := by
  obtain ⟨hstart, hstop, hids⟩ := (accepts_iff _ _).mp hacc
  refine ⟨Bool.and_eq_true_iff.mpr ⟨hstart, hstop⟩, ?_⟩
  have hon : OnTopic summary topics header ↔ header.channelId ∈ channelIds summary options :=
    (mem_channelIds h header.channelId).symm
  have hnil : channelIds summary options = [] ↔ ¬ TopicsMatch summary options :=
    channelIds_eq_nil_iff h
  rw [hon]
  constructor
  · intro hmem
    by_contra hno
    rw [hnil.mpr hno] at hmem
    exact absurd hmem List.not_mem_nil
  · intro hmatch
    exact hids.resolve_left fun hempty => hnil.mp hempty hmatch

theorem accepts_of_selects {header : MessageHeader}
    (h : selects summary options header = true) :
    Filter.accepts (filterOf summary options) header = true := by
  simp only [selects, Bool.and_eq_true] at h
  obtain ⟨⟨hstart, hstop⟩, htopics⟩ := h
  refine (accepts_iff _ _).mpr ⟨hstart, hstop, ?_⟩
  show channelIds summary options = [] ∨ header.channelId ∈ channelIds summary options
  cases hinc : options.includeTopics with
  | none =>
    left
    rw [channelIds, hinc]
  | some topics =>
    right
    rw [hinc, Option.all_some, Option.any_eq_true] at htopics
    obtain ⟨channel, hchannel, hmem⟩ := htopics
    exact (mem_channelIds hinc _).mpr ⟨channel, hchannel, List.contains_iff_mem.mp hmem⟩

/-! ## What a reader yields -/

namespace IndexedReader

variable {r s : IndexedReader}

theorem filter_new (h : newWithOptions summary options = .ok r) :
    r.filter = filterOf summary options := by
  rw [newWithOptions] at h
  obtain ⟨⟨⟩, -, h⟩ := bind_eq_ok h
  obtain ⟨⟨⟩, -, h⟩ := bind_eq_ok h
  cases h
  rfl

theorem filter_yieldMessage (i : SlotIndex) (r : IndexedReader) :
    (yieldMessage i r).2.filter = r.filter := by
  rw [yieldMessage]
  split
  · rfl
  · split
    · rfl
    · rfl
    · split <;> rfl

theorem filter_nextEvent (r : IndexedReader) : (nextEvent r).2.filter = r.filter := by
  rw [nextEvent]
  split
  · split
    · split
      · rfl
      · exact filter_yieldMessage _ r
      · rfl
      · rfl
    · exact filter_yieldMessage _ r
  · split <;> rfl

theorem filter_insert (offset : UInt64) (data : Bytes) (r : IndexedReader) :
    (insertChunkRecordData C offset data r).2.filter = r.filter := by
  rw [insert_eq]
  split
  · rfl
  · rfl
  · rfl
  · split
    · rfl
    · split
      · rfl
      · rfl
      · obtain ⟨r', hr, -, hf, -⟩ := indexChunk_eq _ _ _ ((r.takeSlot offset).fillSlot
          (findOrMakeChunkSlot offset r.chunkSlots).1 _)
        rw [hr]
        exact hf

theorem Leads.filter (h : Leads C r s) : s.filter = r.filter := by
  induction h with
  | refl => rfl
  | @call s t res call _ hrun _ _ ih =>
    rw [← ih]
    cases call with
    | next =>
      have hf := filter_nextEvent s
      rw [Call.run] at hrun
      rwa [hrun] at hf
    | insert offset data =>
      have hf := filter_insert (C := C) offset data s
      rw [Call.run, Exec.bind_run] at hrun
      rcases hins : insertChunkRecordData C offset data s with ⟨a | e | _, t'⟩ <;>
        rw [hins] at hrun hf <;> cases hrun <;> exact hf

/-- **A reader yields only what its filter accepts.** -/
theorem next_event_accepted (h : Good r) {header : MessageHeader} {data : Bytes}
    (hrun : nextEvent r = (.ok (some (.message header data)), s)) :
    Filter.accepts r.filter header = true := by
  have hrequest : ∀ (c : ChunkIndex) (limit : Option Nat),
      chunkRequest c limit ≠ .ok (some (.message header data)) := by
    intro c limit heq
    rw [chunkRequest] at heq
    split at heq
    · cases heq
    · split at heq <;> cases heq
  have hyield : ∀ i ∈ r.unread, yieldMessage i r = (.ok (some (.message header data)), s) →
      Filter.accepts r.filter header = true := by
    intro i hi heq
    obtain ⟨slot, hslot, m, hm, hacc⟩ := h.messages i hi
    rw [yieldMessage, hslot] at heq
    simp only [hm] at heq
    split at heq
    · cases heq
    · cases heq
      exact hacc
  rw [nextEvent, head?_unread, head?_uninserted] at hrun
  cases hu : r.unread with
  | nil =>
    rw [hu] at hrun
    cases hw : r.uninserted with
    | nil =>
      rw [hw] at hrun
      cases hrun
    | cons c waiting =>
      rw [hw] at hrun
      exact absurd (congrArg Prod.fst hrun) (hrequest c _)
  | cons i rest =>
    have hi : i ∈ r.unread := hu ▸ List.mem_cons_self
    rw [hu] at hrun
    cases hw : r.uninserted with
    | nil =>
      rw [hw] at hrun
      exact hyield i hi hrun
    | cons c waiting =>
      rw [hw] at hrun
      simp only [List.head?_cons] at hrun
      split at hrun
      · exact absurd (congrArg Prod.fst hrun) (hrequest c _)
      · exact hyield i hi hrun
      · cases hrun
      · cases hrun

/-! ## What a reader leaves out -/

theorem usedWithin_of_new (F : IndexedFile C file summary)
    (h : newWithOptions summary options = .ok r) : F.UsedWithin options := by
  rw [newWithOptions] at h
  obtain ⟨⟨⟩, -, h⟩ := bind_eq_ok h
  obtain ⟨⟨⟩, hsizes, -⟩ := bind_eq_ok h
  intro l hlim c hc hused
  have hmem : c.2 ∈ sortChunks options.order
      (summary.chunkIndexes.filter (usesChunk (filterOf summary options))) := by
    refine (IndexedFile.sortChunks_perm _ _).mem_iff.mpr (List.mem_filter.mpr ⟨?_, hused⟩)
    exact F.summary_perm.mem_iff.mpr (List.mem_map_of_mem hc)
  have hok := forall_of_forM hsizes hmem
  have hi := F.indexed c hc
  rw [checkSizes, hlim, hi.compressedSize, hi.uncompressedSize, checkLen, checkLen] at hok
  constructor <;> by_contra hgt <;> simp [hgt] at hok

/-- **A reader yields all that its filter accepts**, whatever chunk that is not inserted
yet a driver answers a request with. -/
theorem delivers_accepted (F : IndexedFile C file summary)
    (h : newWithOptions summary options = .ok r) :
    Delivers C file anyChunk r fun out =>
      out.Perm (F.messages.filter fun l => Filter.accepts (filterOf summary options) l.header) := by
  obtain ⟨r', waiting, hnew, hplan, hr⟩ := F.refines_new (usedWithin_of_new F h)
  cases h.symm.trans hnew
  have hvalid := hplan.valid (Filter.accepts (filterOf summary options))
  exact delivers_of_merge (fun _ => True) anyChunk_may
    ((Merge.delivers_sorted time_le_of_key_le hvalid).mono fun out hout =>
      hout.1.trans hplan.left_accepted) hr

theorem Delivers.imp {answers : Answers} {P Q : List Located → Prop}
    (h : Delivers C file answers r P) (hPQ : ∀ out, P out → Q out) :
    Delivers C file answers r Q := by
  induction h generalizing Q with
  | message hpos hnext _ ih => exact .message hpos hnext (ih fun out => hPQ _)
  | request hnext hok _ ih => exact .request hnext hok fun answer r'' ha hr => ih answer r'' ha hr hPQ
  | done hnext hP => exact .done hnext (hPQ _ hP)

end IndexedReader

/-! ## Topics -/

/-- **The topic filter, exactly.**  A message that a reader yields, over any summary and
whatever data it is given, is within the time bounds, and it is on one of the topics if
and only if these match some channel of the summary.  Over a file that the summary
indexes, every message that was asked for is yielded, and nothing else is if and only if
the topics match some channel or no message is within the bounds. -/
theorem topic_filter_iff {topics : List String} {r : IndexedReader}
    (htopics : options.includeTopics = some topics)
    (hnew : newWithOptions summary options = .ok r) :
    (∀ s s' header data, IndexedReader.Leads C r s →
      nextEvent s = (.ok (some (.message header data)), s') →
      inBounds options header = true ∧
        (OnTopic summary topics header ↔ TopicsMatch summary options)) ∧
    ∀ (file : Bytes) (F : IndexedFile C file summary),
      Delivers C file anyChunk r fun out =>
        (∀ l ∈ F.selected options, l ∈ out) ∧
        (out.Perm (F.selected options) ↔
          TopicsMatch summary options ∨ ∀ l ∈ F.messages, inBounds options l.header = false) := by
  constructor
  · intro s s' header data hl hnext
    have hacc := next_event_accepted (hl.good (good_new hnew)) hnext
    rw [hl.filter, filter_new hnew] at hacc
    exact accepts_onTopic htopics hacc
  · intro file F
    refine (delivers_accepted F hnew).imp fun out hout => ⟨fun l hl => ?_, ?_⟩
    · obtain ⟨hmem, hsel⟩ := List.mem_filter.mp hl
      exact hout.mem_iff.mpr (List.mem_filter.mpr ⟨hmem, accepts_of_selects hsel⟩)
    constructor
    · intro hperm
      by_cases hmatch : TopicsMatch summary options
      · exact .inl hmatch
      refine .inr fun l hl => Bool.eq_false_iff.mpr fun hin => ?_
      -- with no channel to select by, a message within the bounds is accepted
      have hacc : Filter.accepts (filterOf summary options) l.header = true :=
        (accepts_iff _ _).mpr ⟨(Bool.and_eq_true_iff.mp hin).1, (Bool.and_eq_true_iff.mp hin).2,
          .inl ((channelIds_eq_nil_iff htopics).mpr hmatch)⟩
      have hout' : l ∈ F.selected options :=
        hperm.mem_iff.mp (hout.mem_iff.mpr (List.mem_filter.mpr ⟨hl, hacc⟩))
      have hsel := (List.mem_filter.mp hout').2
      simp only [selects, htopics, Option.all_some, Bool.and_eq_true, Option.any_eq_true] at hsel
      obtain ⟨channel, hchannel, hmem⟩ := hsel.2
      exact hmatch fun topics' h' => by
        cases htopics.symm.trans h'
        exact ⟨_, channel, hchannel, List.contains_iff_mem.mp hmem⟩
    · rintro (hmatch | hnone)
      · refine hout.trans (List.Perm.of_eq ?_)
        exact List.filter_congr fun l _ => accepts_eq_selects hmatch l.header
      · have hempty : ∀ p : Located → Bool, (∀ l, p l = true → inBounds options l.header = true) →
            F.messages.filter p = [] := by
          intro p hp
          refine List.filter_eq_nil_iff.mpr fun l hl hpl => ?_
          have hin := hp l hpl
          rw [hnone l hl] at hin
          cases hin
        have hselected : F.selected options = [] := hempty _ fun l hsel =>
          (accepts_onTopic htopics (accepts_of_selects hsel)).1
        rw [hempty _ fun l hacc => (accepts_onTopic htopics hacc).1] at hout
        rwa [hselected]

/-! ## Topics that no channel is on -/

/-- The file with two overlapping chunks; its channel is on one topic. -/
def imuSummary : Summary :=
  { overlapSummary with
    channels := (∅ : BTreeMap UInt16 Channel).insert 0
      { id := 0, topic := "/imu", schema := none, messageEncoding := "cdr", metadata := ∅ } }

def imuIndexed : IndexedFile noCodecs overlapFile imuSummary :=
  { overlapIndexed with summary_perm := .refl _ }

def only (topic : String) : IndexedReaderOptions := { includeTopics := some [topic] }

theorem exists_reader (topic : String) :
    ∃ r, newWithOptions imuSummary (only topic) = .ok r :=
  (imuIndexed.refines_new fun _ h => (by cases h)).imp fun _ h => h.choose_spec.1

theorem topic_filter_iff_imu :
    ∃ r, newWithOptions imuSummary (only "/imu") = .ok r ∧
      Delivers noCodecs overlapFile anyChunk r fun out =>
        (∀ l ∈ imuIndexed.selected (only "/imu"), l ∈ out) ∧
        (out.Perm (imuIndexed.selected (only "/imu")) ↔
          TopicsMatch imuSummary (only "/imu") ∨
            ∀ l ∈ imuIndexed.messages, inBounds (only "/imu") l.header = false) := by
  obtain ⟨r, hnew⟩ := exists_reader "/imu"
  exact ⟨r, hnew, (topic_filter_iff rfl hnew).2 _ imuIndexed⟩

/-- **Topics that match no channel select everything**: the reader of "/camera" yields
the four messages on "/imu". -/
theorem topic_filter_ignored :
    ¬ ∀ (C : Codecs) (file : Bytes) (summary : Summary) (_ : IndexedFile C file summary)
      (options : IndexedReaderOptions) (topics : List String) (r : IndexedReader),
      options.includeTopics = some topics → newWithOptions summary options = .ok r →
      Delivers C file requested r fun out => ∀ l ∈ out, OnTopic summary topics l.header := by
  intro h
  obtain ⟨r, hnew⟩ := exists_reader "/camera"
  have hdel := h noCodecs overlapFile imuSummary imuIndexed (only "/camera") ["/camera"] r rfl hnew
  have hrun : ((newWithOptions imuSummary (only "/camera")).toOption.bind
      (IndexedReader.drive noCodecs overlapFile 10)).map List.length = some 4 := by
    decide +kernel
  rw [hnew] at hrun
  obtain ⟨out, hout, hlen⟩ := Option.map_eq_some_iff.mp hrun
  obtain ⟨l, hl⟩ := List.exists_mem_of_length_pos (l := out) (by omega)
  obtain ⟨channel, hchannel, htopic⟩ := hdel.drive hout l hl
  have htopic : channel.topic = "/camera" := by simpa using htopic
  rw [imuSummary, Std.ExtTreeMap.getElem?_insert] at hchannel
  split at hchannel
  · cases hchannel
    exact absurd htopic (by decide)
  · simp at hchannel

end Mcap

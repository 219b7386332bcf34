import Mcap.TsAccounts

/-! # The journal of a writer of the TypeScript library balances

What the statistics of a writer say is so of its journal (`Statistics.Counts`), and what is in the
journal fits in its fields (`Told`), along calls that have something to tell that fits
(`Call.Sound`): a message of a known channel, if messages are counted, and room in the open chunk.
-/
namespace Mcap
namespace Ts

open McapRecordBuilder BufferBuilder

/-! ## Statistics -/

/-- The chunks among items. -/
def chunksOf (items : List Item) : List Chunk := items.filterMap fun i => i.record.chunk?

/-- How many messages there are of a channel. -/
def messagesIn (channelId : Nat) (l : List TypedMcapRecord) : Nat :=
  (messagesOf l).countP fun m => decide (m.channelId = channelId)

/-- **The statistics of some records**, and of the chunks that they are in. -/
structure Statistics.Counts (s : Statistics) (records : List TypedMcapRecord) (items : List Item) :
    Prop where
  messageCount : s.messageCount = (messagesOf records).length
  attachmentCount : s.attachmentCount = (records.filterMap TypedMcapRecord.attachment?).length
  metadataCount : s.metadataCount = (records.filterMap TypedMcapRecord.metadata?).length
  chunkCount : s.chunkCount = (chunksOf items).length
  messageStartTime : s.messageStartTime = (logTimes records).min?.getD 0
  messageEndTime : s.messageEndTime = (logTimes records).max?.getD 0
  channelMessageCounts : ∀ id, (s.channelMessageCounts.get? id).getD 0 = messagesIn id records
  positive : ∀ id n, s.channelMessageCounts.get? id = some n → n ≠ 0

section
variable {s : Statistics} {records records' news : List TypedMcapRecord} {items items' : List Item}

/-- **One more message**, behind definitions. -/
theorem Statistics.Counts.addMessage (h : s.Counts records items) (message : Message)
    (hnews : ∀ r ∈ news, r.Content ∧ r.message? = none) :
    (s.addMessage message).Counts (records ++ (news ++ [.message message])) items := by
  have hnone : messagesOf news = [] := List.filterMap_eq_nil_iff.mpr fun r hr => (hnews r hr).2
  have hmessages : messagesOf (records ++ (news ++ [.message message])) = messagesOf records ++ [message] := by
    rw [messagesOf_append, messagesOf_append, hnone]
    rfl
  have htimes : logTimes (records ++ (news ++ [.message message])) =
      logTimes records ++ [message.logTime] := by
    rw [logTimes_eq, hmessages, List.map_append]
    rfl
  have hothers : ∀ {β : Type} (kind : TypedMcapRecord → Option β), (∀ r, r.Content → kind r = none) →
      (records ++ (news ++ [TypedMcapRecord.message message])).filterMap kind = records.filterMap kind := by
    intro β kind hkind
    have hmessage : kind (.message message) = none := hkind (.message message) trivial
    rw [List.filterMap_append, List.filterMap_append, List.filterMap_cons_none hmessage,
      List.filterMap_eq_nil_iff.mpr fun r hr => hkind r (hnews r hr).1]
    exact List.append_nil _
  have hcount : s.messageCount = (logTimes records).length := by
    rw [h.messageCount, logTimes_eq, List.length_map]
  constructor
  · rw [hmessages, List.length_append]
    exact congrArg (· + 1) h.messageCount
  · rw [hothers _ fun r hr => hr.attachment?]
    exact h.attachmentCount
  · rw [hothers _ fun r hr => hr.metadata?]
    exact h.metadataCount
  · exact h.chunkCount
  · rw [htimes, min?_concat, ← hcount, ← h.messageStartTime]
    rfl
  · rw [htimes, max?_concat, ← hcount, ← h.messageEndTime]
    rfl
  · intro id
    unfold messagesIn
    rw [hmessages, List.countP_append]
    show ((s.channelMessageCounts.set message.channelId
      ((s.channelMessageCounts.get? message.channelId).getD 0 + 1)).get? id).getD 0 = _
    by_cases hid : id = message.channelId
    · subst hid
      rw [Dict.get?_set_self, h.channelMessageCounts]
      simp [messagesIn]
    · rw [Dict.get?_set_ne hid, h.channelMessageCounts]
      simp [messagesIn, Ne.symm hid]
  · intro id n hget
    change (s.channelMessageCounts.set message.channelId _).get? id = some n at hget
    by_cases hid : id = message.channelId
    · subst hid
      rw [Dict.get?_set_self] at hget
      cases hget
      exact Nat.succ_ne_zero _
    · rw [Dict.get?_set_ne hid] at hget
      exact h.positive id n hget

/-- **One more record that is no message**, among the others. -/
theorem Statistics.Counts.insert {front back : List TypedMcapRecord} {r : TypedMcapRecord}
    {s' : Statistics} (h : s.Counts (front ++ back) items) (hr : r.message? = none)
    (hsame : s' = { s with
      attachmentCount := s.attachmentCount + r.attachment?.toList.length
      metadataCount := s.metadataCount + r.metadata?.toList.length }) :
    s'.Counts (front ++ r :: back) items := by
  subst hsame
  have hmessages : messagesOf (front ++ r :: back) = messagesOf (front ++ back) := by
    unfold messagesOf
    rw [List.filterMap_append, List.filterMap_append, List.filterMap_cons_none hr]
  have hcount : ∀ {β : Type} (kind : TypedMcapRecord → Option β),
      ((front ++ r :: back).filterMap kind).length =
        ((front ++ back).filterMap kind).length + (kind r).toList.length := by
    intro β kind
    rw [List.filterMap_append, List.filterMap_append, List.length_append, List.length_append]
    cases hkind : kind r with
    | none => rw [List.filterMap_cons_none hkind]; rfl
    | some b => rw [List.filterMap_cons_some hkind]; rfl
  constructor
  · rw [hmessages]
    exact h.messageCount
  · rw [hcount]
    exact congrArg (· + _) h.attachmentCount
  · rw [hcount]
    exact congrArg (· + _) h.metadataCount
  · exact h.chunkCount
  · rw [logTimes_eq, hmessages]
    exact h.messageStartTime
  · rw [logTimes_eq, hmessages]
    exact h.messageEndTime
  · intro id
    unfold messagesIn
    rw [hmessages]
    exact h.channelMessageCounts id
  · exact h.positive

end

/-! ## Room -/

/-- How many messages of a channel are in the index of an open chunk. -/
def ChunkBuilder.indexedCount (c : ChunkBuilder) (channelId : Nat) : Nat :=
  match c.messageIndices with
  | some messageIndices =>
      match messageIndices.get? channelId with
      | some messageIndex => messageIndex.records.length
      | none => 0
  | none => 0

/-- **Room in the open chunk**: the data and the index of the channel have lengths that can be
written. -/
def Roomy (w : McapWriter) (records : List TypedMcapRecord) (channelId : Nat) : Prop :=
  ∀ c, w.chunkBuilder = some c → c.byteLength + (recordBytes records).length ≤ MAX_SAFE_INTEGER ∧
    (c.indexedCount channelId + 1) * 16 < 2 ^ 32

/-- **A call that tells what can be told.**  A message that is not of a known channel is refused,
which must not happen if messages are counted. -/
def Call.Sound (options : McapWriterOptions) (w : McapWriter) : Call → Prop
  | .addMessage message =>
      (options.useStatistics = true → Known w message.channelId) ∧
      (Known w message.channelId →
        (∀ r ∈ definitionsFor w message.channelId ++ [.message message], r.Fits) ∧
        Roomy w (definitionsFor w message.channelId ++ [.message message]) message.channelId)
  | .addAttachment attachment => (TypedMcapRecord.attachment attachment).Fits
  | .addMetadata metadata => (TypedMcapRecord.metadata metadata).Fits
  | _ => True

/-- The names of compressions can be written. -/
def CompressionFits (options : McapWriterOptions) : Prop :=
  ∀ compress, options.compressChunk = some compress → ∀ data, StringFits (compress data).1

/-- **An item whose record fits**, with what is in it. -/
def Item.Stands (i : Item) : Prop :=
  i.record.Fits ∧ (∀ r ∈ i.inner, r.Fits) ∧ (recordBytes i.inner).length ≤ MAX_SAFE_INTEGER

/-- The index of an attachment that is in the first bytes of a file. -/
structure AttachmentIndex.Within (n : Nat) (i : AttachmentIndex) : Prop where
  offset : i.offset ≤ n
  length : i.length ≤ n
  dataSize : i.dataSize ≤ n
  logTime : i.logTime < 2 ^ 64
  createTime : i.createTime < 2 ^ 64
  name : StringFits i.name
  mediaType : StringFits i.mediaType

/-- The index of a metadata record that is in the first bytes of a file. -/
structure MetadataIndex.Within (n : Nat) (i : MetadataIndex) : Prop where
  offset : i.offset ≤ n
  length : i.length ≤ n
  name : StringFits i.name

theorem AttachmentIndex.Within.mono {n n' : Nat} {i : AttachmentIndex} (h : i.Within n) (hn : n ≤ n') :
    i.Within n' :=
  ⟨h.offset.trans hn, h.length.trans hn, h.dataSize.trans hn, h.logTime, h.createTime, h.name,
    h.mediaType⟩

theorem MetadataIndex.Within.mono {n n' : Nat} {i : MetadataIndex} (h : i.Within n) (hn : n ≤ n') :
    i.Within n' := ⟨h.offset.trans hn, h.length.trans hn, h.name⟩

/-! ## Items that fit -/

section
variable {options : McapWriterOptions} {c : ChunkBuilder} {inner : List TypedMcapRecord}

theorem lt_of_fits {l : List TypedMcapRecord} (h : ∀ r ∈ l, r.Fits) : ∀ t ∈ logTimes l, t < 2 ^ 64 := by
  intro t ht
  obtain ⟨m, hm, rfl⟩ := List.mem_map.mp ht
  obtain ⟨r, hr, hmessage⟩ := List.mem_filterMap.mp hm
  have hrecord : r = .message m := by
    cases r <;> cases hmessage
    rfl
  subst hrecord
  exact (h _ hr).2.2.1

theorem min?_lt {l : List Nat} (h : ∀ t ∈ l, t < 2 ^ 64) : l.min?.getD 0 < 2 ^ 64 := by
  cases hmin : l.min? with
  | none => decide
  | some t => exact h t (List.min?_mem hmin)

theorem max?_lt {l : List Nat} (h : ∀ t ∈ l, t < 2 ^ 64) : l.max?.getD 0 < 2 ^ 64 := by
  cases hmax : l.max? with
  | none => decide
  | some t => exact h t (List.max?_mem hmax)

theorem mem_entriesOf {id : Nat} {l : List Place} {e : Nat × Nat} (h : e ∈ entriesOf id l) :
    ∃ p ∈ l, ∃ m, p.item.record = .message m ∧ m.channelId = id ∧ e = (m.logTime, p.offset) := by
  obtain ⟨p, hp, hentry⟩ := List.mem_filterMap.mp h
  obtain ⟨m, hm, hsome⟩ := Option.bind_eq_some_iff.mp hentry
  have hrecord : p.item.record = .message m := by
    cases hr : p.item.record <;> rw [hr] at hm <;> cases hm
    rfl
  split at hsome
  · rename_i hid
    exact ⟨p, hp, m, hrecord, hid, (Option.some.inj hsome).symm⟩
  · cases hsome

/-- **The items of a chunk that is closed fit**, if what was in the chunk does. -/
theorem stands_chunkItems (h : Holds options c inner none) (hmessages : c.numMessages ≠ 0)
    (hcompression : CompressionFits options) (hfits : ∀ r ∈ inner, r.Fits)
    (hroom : (recordBytes inner).length ≤ MAX_SAFE_INTEGER)
    (hentries : options.useMessageIndex = true → ∀ id,
      (entriesOf id (innerPlaces inner)).length * 16 < 2 ^ 32) :
    ∀ i ∈ chunkItems options c inner, i.Stands := by
  have hmax : MAX_SAFE_INTEGER < 2 ^ 64 := by decide
  have hpacked := h.packed hmessages
  obtain ⟨-, hrecords, hcovered⟩ := h.indices
  intro i hi
  rcases List.mem_cons.mp hi with rfl | hi
  · refine ⟨⟨?_, ?_, ?_, ?_, ?_⟩, hfits, hroom⟩
    · rw [hpacked.startTime]
      exact min?_lt (lt_of_fits hfits)
    · rw [hpacked.endTime]
      exact max?_lt (lt_of_fits hfits)
    · rw [hpacked.size]
      omega
    · rw [hpacked.crc]
      exact (crc32 _).toNat_lt
    · unfold chunkOf
      dsimp only
      cases hcompress : options.compressChunk with
      | none => exact stringFits_empty
      | some compress => exact hcompression compress hcompress _
  · obtain ⟨index, hindex, rfl⟩ := List.mem_map.mp hi
    obtain ⟨huse, hne⟩ := (hcovered index.channelId).mp ⟨index, hindex, rfl⟩
    have hmem : ∀ e ∈ entriesOf index.channelId (innerPlaces inner),
        index.channelId < 2 ^ 16 ∧ e.1 < 2 ^ 64 ∧ e.2 < 2 ^ 64 := by
      intro e he
      obtain ⟨p, hp, m, hrecord, hid, rfl⟩ := mem_entriesOf he
      obtain ⟨front, back, heq, hoffset, -⟩ := mem_placed.mp hp
      have hmessage : .message m ∈ inner := by
        have hitem : p.item ∈ inner.map Item.plain := heq ▸ List.mem_append_right _ List.mem_cons_self
        obtain ⟨r, hr, hplain⟩ := List.mem_map.mp hitem
        rw [← hplain] at hrecord
        exact hrecord ▸ hr
      have hfit := hfits _ hmessage
      refine ⟨hid ▸ hfit.1, hfit.2.2.1, ?_⟩
      have hlength := congrArg (fun l => (Item.allBytes l).length) heq
      rw [Item.allBytes_plain, Item.allBytes_append, List.length_append] at hlength
      show p.offset < 2 ^ 64
      omega
    obtain ⟨e, he⟩ := List.exists_mem_of_ne_nil _ hne
    refine ⟨⟨(hmem e he).1, ?_, ?_⟩, fun r hr => absurd hr List.not_mem_nil, Nat.zero_le _⟩
    · rw [hrecords index hindex]
      exact fun e he => (hmem e he).2
    · rw [hrecords index hindex]
      exact hentries huse _

end

/-! ## The balance -/

/-- The records of a journal, wherever they are. -/
def journal (flushed pending : List Item) (inner : List TypedMcapRecord) : List TypedMcapRecord :=
  contentsOf flushed ++ (contentsOf pending ++ inner)

/-- **What a writer has been told is in its journal**, fits, and is counted. -/
structure Told (options : McapWriterOptions) (B : Base) (w : McapWriter) (flushed pending : List Item)
    (inner told : List TypedMcapRecord) : Prop where
  contents : (journal flushed pending inner).filter sent = told
  header : ((journal flushed pending inner).filterMap TypedMcapRecord.header?).length = 1
  fits : ∀ r ∈ journal flushed pending inner, r.Fits
  items : ∀ i ∈ flushed, i.Stands
  room : (recordBytes inner).length ≤ MAX_SAFE_INTEGER
  entries : options.useMessageIndex = true → ∀ id,
    (entriesOf id (innerPlaces inner)).length * 16 < 2 ^ 32
  messages : messagesOf inner = [] → inner = []
  used : w.statistics ≠ none → options.useStatistics = true
  counts : ∀ s, w.statistics = some s → s.Counts (journal flushed pending inner) flushed
  attachmentIndices : ∀ l, w.attachmentIndices = some l → ∀ i ∈ l,
    i.Within (B.front ++ Item.allBytes flushed).length
  metadataIndices : ∀ l, w.metadataIndices = some l → ∀ i ∈ l,
    i.Within (B.front ++ Item.allBytes flushed).length

section
variable {options : McapWriterOptions} {B : Base} {w w' : McapWriter} {flushed pending : List Item}
  {inner told : List TypedMcapRecord}

theorem Told.congr (h : Told options B w flushed pending inner told)
    (hused : w'.statistics ≠ none → options.useStatistics = true)
    (hcounts : ∀ s, w'.statistics = some s → s.Counts (journal flushed pending inner) flushed)
    (hattachments : w'.attachmentIndices = w.attachmentIndices)
    (hmetadata : w'.metadataIndices = w.metadataIndices) :
    Told options B w' flushed pending inner told :=
  { h with
    used := hused
    counts := hcounts
    attachmentIndices := by rw [hattachments]; exact h.attachmentIndices
    metadataIndices := by rw [hmetadata]; exact h.metadataIndices }

theorem indexedCount_eq {c : ChunkBuilder} (h : Holds options c inner none)
    (huse : options.useMessageIndex = true) (id : Nat) :
    c.indexedCount id = (entriesOf id (innerPlaces inner)).length := by
  obtain ⟨d, hd, hget⟩ := h.indexed huse
  unfold ChunkBuilder.indexedCount
  rw [hd]
  dsimp only
  rw [hget id]
  unfold indexOf
  by_cases hnil : entriesOf id (innerPlaces inner) = []
  · rw [if_pos ⟨hnil, Option.some_ne_none _ ∘ Eq.symm⟩, hnil]
    rfl
  · rw [if_neg fun h => hnil h.1]

theorem length_entriesOf_concat (inner : List TypedMcapRecord) {news : List TypedMcapRecord}
    (hnews : ∀ r ∈ news, r.Content ∧ r.message? = none) (message : Message) (id : Nat) :
    (entriesOf id (innerPlaces (inner ++ (news ++ [.message message])))).length =
      (entriesOf id (innerPlaces inner)).length + if message.channelId = id then 1 else 0 := by
  induction news generalizing inner with
  | nil =>
    rw [List.nil_append, innerPlaces_concat, entriesOf_append, List.length_append, entriesOf_message]
    split <;> rfl
  | cons r news ih =>
    have hcons : inner ++ (r :: news ++ [.message message]) =
        (inner ++ [r]) ++ (news ++ [.message message]) := by simp
    rw [hcons, ih (inner ++ [r]) fun r hr => hnews r (List.mem_cons_of_mem _ hr),
      entriesOf_concat_none inner (hnews r List.mem_cons_self).2]

theorem recordBytes_concat (inner news : List TypedMcapRecord) :
    (recordBytes (inner ++ news)).length = (recordBytes inner).length + (recordBytes news).length := by
  rw [recordBytes_append, List.length_append]

/-- **Where a message goes**: behind what waits in the open chunk, if there are chunks. -/
theorem addMessage_inner (h : Laid options B w flushed pending inner none) {w' : McapWriter}
    {closed pending' : List Item} {inner' news : List TypedMcapRecord}
    {statistics statistics' : Option Statistics}
    (hlaid : Laid options B w' (flushed ++ closed) pending' inner' none)
    (hcontents : contentsOf closed ++ (contentsOf pending' ++ inner') = contentsOf pending ++ inner ++ news)
    (hchunks : w'.chunkBuilder.isSome = w.chunkBuilder.isSome)
    (hsome : closed ≠ [] → w.chunkBuilder.isSome = true)
    (hcloses : Closes options closed inner' statistics statistics') :
    (closed = [] ∧ inner' = [] ∧ statistics' = statistics ∧ w.chunkBuilder = none) ∨
    (closed = [] ∧ inner' = inner ++ news ∧ statistics' = statistics ∧ w.chunkBuilder ≠ none) ∨
    ∃ c, Holds options c (inner ++ news) none ∧ c.numMessages ≠ 0 ∧
      closed = chunkItems options c (inner ++ news) ∧ inner' = [] ∧ w.chunkBuilder ≠ none ∧
      statistics' = statistics.map fun s => { s with chunkCount := s.chunkCount + 1 } := by
  cases hchunk : w.chunkBuilder with
  | none =>
    rw [hchunk] at hchunks hsome
    have hclosed : closed = [] := by
      by_contra hne
      cases hsome hne
    subst hclosed
    refine .inl ⟨rfl, hlaid.closed (Option.isSome_eq_false_iff.mp hchunks |> Option.isNone_iff_eq_none.mp),
      ?_, rfl⟩
    cases hcloses
    rfl
  | some c =>
    rw [hchunk] at hchunks
    obtain ⟨c', hc'⟩ := Option.isSome_iff_exists.mp hchunks
    rw [(h.opened c hchunk).2, (hlaid.opened c' hc').2, contentsOf_nil, List.nil_append,
      List.nil_append] at hcontents
    cases hcloses with
    | nothing => exact .inr (.inl ⟨rfl, hcontents, rfl, Option.some_ne_none _⟩)
    | chunk hholds hmessages =>
      rw [contentsOf_chunkItems, List.append_nil] at hcontents
      subst hcontents
      exact .inr (.inr ⟨_, hholds, hmessages, rfl, rfl, Option.some_ne_none _, rfl⟩)

theorem chunksOf_append (l l' : List Item) : chunksOf (l ++ l') = chunksOf l ++ chunksOf l' :=
  List.filterMap_append

theorem length_chunksOf_chunkItems (c : ChunkBuilder) :
    (chunksOf (chunkItems options c inner)).length = 1 := by
  have hindexes : chunksOf (indexItems c.indices) = [] := by
    refine List.filterMap_eq_nil_iff.mpr fun i hi => ?_
    obtain ⟨index, -, rfl⟩ := List.mem_map.mp hi
    rfl
  show (chunkOf options c :: chunksOf (indexItems c.indices)).length = 1
  rw [hindexes]
  rfl

/-- **A message that is accepted.** -/
theorem Told.addMessage (ht : Told options B w flushed pending inner told)
    (h : Laid options B w flushed pending inner none) (hcompression : CompressionFits options)
    {w' : McapWriter} {closed pending' : List Item} {inner' : List TypedMcapRecord} {message : Message}
    {defs : List TypedMcapRecord} (hdefs : ∀ r ∈ defs, r.Content ∧ r.message? = none)
    (hfits : ∀ r ∈ defs ++ [.message message], r.Fits)
    (hroom : Roomy w (defs ++ [.message message]) message.channelId)
    (hlaid : Laid options B w' (flushed ++ closed) pending' inner' none)
    (hcontents : contentsOf closed ++ (contentsOf pending' ++ inner') =
      contentsOf pending ++ inner ++ (defs ++ [.message message]))
    (hleaves : Leaves w w') (hsome : closed ≠ [] → w.chunkBuilder.isSome = true)
    (hcloses : Closes options closed inner' (w.statistics.map (Statistics.addMessage message))
      w'.statistics) :
    Told options B w' (flushed ++ closed) pending' inner' (told ++ (defs ++ [.message message])) := by
  have hjournal : journal (flushed ++ closed) pending' inner' =
      journal flushed pending inner ++ (defs ++ [.message message]) := by
    unfold journal
    rw [contentsOf_append, List.append_assoc, hcontents]
    simp only [List.append_assoc]
  have hsent : (defs ++ [TypedMcapRecord.message message]).filter sent = defs ++ [.message message] := by
    refine List.filter_eq_self.mpr fun r hr => ?_
    rcases List.mem_append.mp hr with hr | hr
    · exact sent_of_content (hdefs r hr).1
    · rw [List.mem_singleton.mp hr]
      rfl
  have hheader : (defs ++ [TypedMcapRecord.message message]).filterMap TypedMcapRecord.header? = [] := by
    refine List.filterMap_eq_nil_iff.mpr fun r hr => ?_
    have hcontent : r.Content := by
      rcases List.mem_append.mp hr with hr | hr
      · exact (hdefs r hr).1
      · rw [List.mem_singleton.mp hr]
        exact trivial
    cases r <;> first | rfl | cases hcontent
  have hallfits : ∀ r ∈ journal (flushed ++ closed) pending' inner', r.Fits := by
    rw [hjournal]
    intro r hr
    exact (List.mem_append.mp hr).elim (ht.fits r) (hfits r)
  -- what is in the chunk, or was
  have hchunk : w.chunkBuilder ≠ none →
      (recordBytes (inner ++ (defs ++ [.message message]))).length ≤ MAX_SAFE_INTEGER ∧
      (options.useMessageIndex = true → ∀ id,
        (entriesOf id (innerPlaces (inner ++ (defs ++ [.message message])))).length * 16 < 2 ^ 32) := by
    intro hne
    obtain ⟨c, hc⟩ := Option.ne_none_iff_exists'.mp hne
    obtain ⟨hbytes, hcount⟩ := hroom c hc
    have hholds := (h.opened c hc).1
    have hlength : c.byteLength = (recordBytes inner).length := by
      rw [← hholds.buffer, hholds.sized.length_buffer]
      rfl
    refine ⟨?_, fun huse id => ?_⟩
    · rw [recordBytes_concat, ← hlength]
      exact hbytes
    · rw [length_entriesOf_concat inner hdefs]
      rw [indexedCount_eq hholds huse] at hcount
      split
      · rename_i hid
        rw [← hid]
        exact hcount
      · exact ht.entries huse id
  have hinner : ∀ r ∈ inner ++ (defs ++ [.message message]), r.Fits := by
    intro r hr
    rcases List.mem_append.mp hr with hr | hr
    · exact ht.fits r (List.mem_append_right _ (List.mem_append_right _ hr))
    · exact hfits r hr
  have hempty : (recordBytes []).length ≤ MAX_SAFE_INTEGER ∧
      (options.useMessageIndex = true → ∀ id,
        (entriesOf id (innerPlaces [])).length * 16 < 2 ^ 32) :=
    ⟨Nat.zero_le _, fun _ _ => show 0 * 16 < 2 ^ 32 by decide⟩
  have hcounts : ∀ s, w.statistics.map (Statistics.addMessage message) = some s →
      s.Counts (journal (flushed ++ closed) pending' inner') flushed := by
    intro s hs
    obtain ⟨s', hs', rfl⟩ := Option.map_eq_some_iff.mp hs
    rw [hjournal]
    exact (ht.counts s' hs').addMessage message hdefs
  have hgrows : (B.front ++ Item.allBytes flushed).length ≤
      (B.front ++ Item.allBytes (flushed ++ closed)).length := by
    simp only [List.length_append, Item.allBytes_append]
    omega
  obtain ⟨hitems, hroom', hentries', hmessages, hused, hstatistics⟩ :
      (∀ i ∈ closed, i.Stands) ∧ (recordBytes inner').length ≤ MAX_SAFE_INTEGER ∧
      (options.useMessageIndex = true → ∀ id,
        (entriesOf id (innerPlaces inner')).length * 16 < 2 ^ 32) ∧
      (messagesOf inner' = [] → inner' = []) ∧
      (w'.statistics ≠ none → w.statistics ≠ none) ∧
      ∀ s, w'.statistics = some s →
        s.Counts (journal (flushed ++ closed) pending' inner') (flushed ++ closed) := by
    have hmap : w.statistics.map (Statistics.addMessage message) ≠ none → w.statistics ≠ none :=
      fun hne hnone => hne (by rw [hnone]; rfl)
    rcases addMessage_inner h hlaid hcontents hleaves.chunks hsome hcloses with
      ⟨rfl, rfl, hstat, -⟩ | ⟨rfl, rfl, hstat, hne⟩ | ⟨c, hholds, hnum, rfl, rfl, hne, hstat⟩
    · refine ⟨fun i hi => absurd hi List.not_mem_nil, hempty.1, hempty.2, fun _ => rfl, ?_, ?_⟩
      · rw [hstat]
        exact hmap
      · rw [hstat]
        rw [List.append_nil] at hcounts ⊢
        exact hcounts
    · refine ⟨fun i hi => absurd hi List.not_mem_nil, (hchunk hne).1, (hchunk hne).2, fun hnil => ?_, ?_, ?_⟩
      · rw [messagesOf_append, messagesOf_append] at hnil
        exact absurd (List.append_eq_nil_iff.mp (List.append_eq_nil_iff.mp hnil).2).2
          (List.cons_ne_nil _ _)
      · rw [hstat]
        exact hmap
      · rw [hstat]
        rw [List.append_nil] at hcounts ⊢
        exact hcounts
    · refine ⟨stands_chunkItems hholds hnum hcompression hinner (hchunk hne).1 (hchunk hne).2, hempty.1,
        hempty.2, fun _ => rfl, ?_, ?_⟩
      · rw [hstat]
        exact fun hne => hmap fun hnone => hne (by rw [hnone]; rfl)
      · rw [hstat]
        intro s hs
        obtain ⟨s', hs', rfl⟩ := Option.map_eq_some_iff.mp hs
        have hs'' := hcounts s' hs'
        exact { hs'' with
          chunkCount := by
            rw [chunksOf_append, List.length_append, length_chunksOf_chunkItems]
            exact congrArg (· + 1) hs''.chunkCount }
  constructor
  · rw [hjournal, List.filter_append, ht.contents, hsent]
  · rw [hjournal, List.filterMap_append, hheader, List.append_nil, ht.header]
  · exact hallfits
  · exact fun i hi => (List.mem_append.mp hi).elim (ht.items i) (hitems i)
  · exact hroom'
  · exact hentries'
  · exact hmessages
  · exact fun hne => ht.used (hused hne)
  · exact hstatistics
  · rw [hleaves.attachmentIndices]
    exact fun l hl i hi => (ht.attachmentIndices l hl i hi).mono hgrows
  · rw [hleaves.metadataIndices]
    exact fun l hl i hi => (ht.metadataIndices l hl i hi).mono hgrows

/-! ## Attachments and metadata -/

theorem pending_stands (h : Laid options B w flushed pending inner none)
    (ht : Told options B w flushed pending inner told) :
    (∀ i ∈ pending, i.Stands) ∧ chunksOf pending = [] := by
  refine ⟨fun i hi => ?_, List.filterMap_eq_nil_iff.mpr fun i hi => ?_⟩
  · obtain ⟨r, hr, rfl⟩ := h.content i hi
    refine ⟨ht.fits r ?_, fun r hr => absurd hr List.not_mem_nil, Nat.zero_le _⟩
    have hcontents : r ∈ contentsOf pending := by
      refine List.mem_flatMap.mpr ⟨.plain r, hi, ?_⟩
      cases r <;> first | exact List.mem_singleton_self _ | cases hr
    exact List.mem_append_right _ (List.mem_append_left _ hcontents)
  · obtain ⟨r, hr, rfl⟩ := h.content i hi
    exact hr.plain.chunk?

theorem journal_putOut {r : TypedMcapRecord} (hr : r.Plain) (flushed pending : List Item)
    (inner : List TypedMcapRecord) :
    journal (flushed ++ (pending ++ [.plain r])) [] inner =
      contentsOf flushed ++ contentsOf pending ++ r :: inner := by
  have hone : contentsOf [Item.plain r] = [r] :=
    contentsOf_plain (l := [r]) fun r' hr' => List.mem_singleton.mp hr' ▸ hr
  unfold journal
  rw [contentsOf_append, contentsOf_append, hone, contentsOf_nil]
  simp only [List.append_assoc, List.nil_append, List.singleton_append]

/-- **A record that is put out at once**, with those that wait. -/
theorem Told.putOut (ht : Told options B w flushed pending inner told)
    (h : Laid options B w flushed pending inner none) {r : TypedMcapRecord} (hr : r.Plain)
    (hkind : sent r = false ∧ r.header? = none) (hfits : r.Fits)
    (hstatistics : w'.statistics = w.statistics.map fun s => { s with
      attachmentCount := s.attachmentCount + r.attachment?.toList.length
      metadataCount := s.metadataCount + r.metadata?.toList.length })
    (hattachments : ∀ l, w'.attachmentIndices = some l → ∀ i ∈ l,
      i.Within ((B.front ++ Item.allBytes flushed).length + r.bytes.length))
    (hmetadata : ∀ l, w'.metadataIndices = some l → ∀ i ∈ l,
      i.Within ((B.front ++ Item.allBytes flushed).length + r.bytes.length)) :
    Told options B w' (flushed ++ (pending ++ [.plain r])) [] inner told := by
  have hjournal := journal_putOut hr flushed pending inner
  have hbefore : journal flushed pending inner = contentsOf flushed ++ contentsOf pending ++ inner :=
    (List.append_assoc _ _ _).symm
  have hgrows : (B.front ++ Item.allBytes flushed).length + r.bytes.length ≤
      (B.front ++ Item.allBytes (flushed ++ (pending ++ [.plain r]))).length := by
    rw [Item.allBytes_append, Item.allBytes_append, Item.allBytes_cons]
    simp only [List.length_append]
    show _ + r.bytes.length ≤ _ + (_ + (_ + (r.bytes.length + _)))
    omega
  obtain ⟨hpending, hnone⟩ := pending_stands h ht
  have hchunks : chunksOf (pending ++ [.plain r]) = [] := by
    rw [chunksOf_append, hnone]
    exact List.filterMap_eq_nil_iff.mpr fun i hi => List.mem_singleton.mp hi ▸ hr.chunk?
  have hmessage : r.message? = none := by
    cases r <;> first | rfl | cases hkind.1
  have hcontents := ht.contents
  have hheader := ht.header
  rw [hbefore] at hcontents hheader
  constructor
  · rw [hjournal]
    simp only [List.filter_append, List.filter_cons, hkind.1] at hcontents ⊢
    exact hcontents
  · rw [hjournal]
    simp only [List.filterMap_append, List.filterMap_cons, hkind.2] at hheader ⊢
    exact hheader
  · rw [hjournal]
    intro r' hr'
    rcases List.mem_append.mp hr' with hr' | hr'
    · exact ht.fits r' (hbefore ▸ List.mem_append_left _ hr')
    · rcases List.mem_cons.mp hr' with rfl | hr'
      · exact hfits
      · exact ht.fits r' (hbefore ▸ List.mem_append_right _ hr')
  · intro i hi
    rcases List.mem_append.mp hi with hi | hi
    · exact ht.items i hi
    · rcases List.mem_append.mp hi with hi | hi
      · exact hpending i hi
      · rw [List.mem_singleton.mp hi]
        exact ⟨hfits, fun r hr => absurd hr List.not_mem_nil, Nat.zero_le _⟩
  · exact ht.room
  · exact ht.entries
  · exact ht.messages
  · exact fun hne => ht.used fun hnone => hne (by rw [hstatistics, hnone]; rfl)
  · intro s hs
    rw [hstatistics] at hs
    obtain ⟨s', hs', rfl⟩ := Option.map_eq_some_iff.mp hs
    have hcounts := ht.counts s' hs'
    rw [hbefore] at hcounts
    rw [hjournal]
    exact { hcounts.insert hmessage rfl with
      chunkCount := by
        rw [chunksOf_append, hchunks, List.append_nil]
        exact hcounts.chunkCount }
  · exact fun l hl i hi => (hattachments l hl i hi).mono hgrows
  · exact fun l hl i hi => (hmetadata l hl i hi).mono hgrows

theorem Told.addAttachment (ht : Told options B w flushed pending inner told)
    (h : Laid options B w flushed pending inner none) {a : Attachment}
    (hfits : (TypedMcapRecord.attachment a).Fits) :
    Told options B (w.addAttachment a) (flushed ++ (pending ++ [.plain (.attachment a)])) [] inner
      told := by
  obtain ⟨-, -, hlength⟩ := writes_attachment a w.recordWriter h.tape.sized
  refine ht.putOut h (r := .attachment a) trivial ⟨rfl, rfl⟩ hfits rfl ?_ ?_
  · intro l hl i hi
    obtain ⟨l', hl', rfl⟩ := Option.map_eq_some_iff.mp hl
    rcases List.mem_append.mp hi with hi | hi
    · exact (ht.attachmentIndices l' hl' i hi).mono (Nat.le_add_right _ _)
    · have hposition := h.tape.position
      rw [← List.length_append] at hposition
      have hdata : a.data.length ≤ (TypedMcapRecord.attachment a).bytes.length := by
        unfold TypedMcapRecord.bytes TypedMcapRecord.body TypedMcapRecord.attachmentFields
        rw [length_frame]
        simp only [List.length_append]
        omega
      rw [List.mem_singleton.mp hi]
      refine ⟨?_, ?_, ?_, hfits.1, hfits.2.1, hfits.2.2.1, hfits.2.2.2⟩
      · show w.position ≤ _
        omega
      · show (writeAttachment a w.recordWriter).2 ≤ _
        omega
      · show a.data.length ≤ _
        omega
  · exact fun l hl i hi => (ht.metadataIndices l hl i hi).mono (Nat.le_add_right _ _)

theorem Told.addMetadata (ht : Told options B w flushed pending inner told)
    (h : Laid options B w flushed pending inner none) {m : Metadata}
    (hfits : (TypedMcapRecord.metadata m).Fits) :
    Told options B (w.addMetadata m) (flushed ++ (pending ++ [.plain (.metadata m)])) [] inner told := by
  obtain ⟨-, -, hlength⟩ := writes_metadata m w.recordWriter h.tape.sized
  refine ht.putOut h (r := .metadata m) trivial ⟨rfl, rfl⟩ hfits rfl ?_ ?_
  · exact fun l hl i hi => (ht.attachmentIndices l hl i hi).mono (Nat.le_add_right _ _)
  · intro l hl i hi
    obtain ⟨l', hl', rfl⟩ := Option.map_eq_some_iff.mp hl
    rcases List.mem_append.mp hi with hi | hi
    · exact (ht.metadataIndices l' hl' i hi).mono (Nat.le_add_right _ _)
    · have hposition := h.tape.position
      rw [← List.length_append] at hposition
      rw [List.mem_singleton.mp hi]
      refine ⟨?_, ?_, hfits.1⟩
      · show w.position ≤ _
        omega
      · show (writeMetadata m w.recordWriter).2 ≤ _
        omega

/-! ## Runs -/

/-- Ids that have not been given to anything yet. -/
structure Fresh (w : McapWriter) : Prop where
  schemas : ∀ id ∈ w.schemas.keys, id < w.nextSchemaId
  channels : ∀ id ∈ w.channels.keys, id < w.nextChannelId

theorem Fresh.leaves (h : Fresh w) (hleaves : Leaves w w') : Fresh w' where
  schemas := by rw [hleaves.schemas, hleaves.nextSchemaId]; exact h.schemas
  channels := by rw [hleaves.channels, hleaves.nextChannelId]; exact h.channels

theorem leaves_addMessage (options : McapWriterOptions) (message : Message) (w : McapWriter) :
    Leaves w (w.addMessage options message).2 := by
  have hcounted : Leaves w (counted message w) := ⟨rfl, rfl, rfl, rfl, rfl, rfl, rfl, rfl⟩
  rcases hneed : (counted message w).needChannel message.channelId with e | w'
  · rw [addMessage_eq_error hneed]
    exact hcounted
  · have hput := (hcounted.trans (leaves_needChannel hneed)).trans (leaves_putMessage message w')
    rw [addMessage_eq_ok hneed]
    split
    · exact hput.trans (leaves_finalizeChunk _)
    · exact hput

variable (options) in
theorem fresh_perform (h : Fresh w) (call : Call) : Fresh (call.perform options w) := by
  cases call with
  | registerSchema info =>
    refine ⟨fun id hid => ?_, h.channels⟩
    show id < w.nextSchemaId + 1
    rcases Dict.mem_keys_set.mp hid with hid | rfl
    · exact Nat.lt_succ_of_lt (h.schemas id hid)
    · exact Nat.lt_succ_self _
  | registerChannel info =>
    refine ⟨h.schemas, fun id hid => ?_⟩
    show id < w.nextChannelId + 1
    rcases Dict.mem_keys_set.mp hid with hid | rfl
    · exact Nat.lt_succ_of_lt (h.channels id hid)
    · exact Nat.lt_succ_self _
  | addMessage message => exact h.leaves (leaves_addMessage options message w)
  | addAttachment a | addMetadata m => exact ⟨h.schemas, h.channels⟩

variable (options) in
/-- **The registry behind some calls**: what was there, and what has been registered. -/
theorem registry_performAll (calls : List Call) (h : Fresh w) :
    (w.performAll options calls).schemas.values = w.schemas.values ++ schemasFrom w.nextSchemaId calls ∧
    (w.performAll options calls).channels.values =
      w.channels.values ++ channelsFrom w.nextChannelId calls := by
  induction calls generalizing w with
  | nil => exact ⟨(List.append_nil _).symm, (List.append_nil _).symm⟩
  | cons call calls ih =>
    obtain ⟨hschemas, hchannels⟩ := ih (fresh_perform options h call)
    have hvalues : ∀ {V : Type} (d : Dict Nat V) (k : Nat) (v : V), k ∉ d.keys →
        (d.set k v).values = d.values ++ [v] := by
      intro V d k v hk
      unfold Dict.values
      rw [Dict.items_set_of_not_mem hk, List.map_append]
      rfl
    have hsame : Leaves w (call.perform options w) →
        schemasFrom w.nextSchemaId (call :: calls) = schemasFrom w.nextSchemaId calls →
        channelsFrom w.nextChannelId (call :: calls) = channelsFrom w.nextChannelId calls → _ :=
      fun hleaves hs hc => (⟨by rw [hs, ← hleaves.schemas, ← hleaves.nextSchemaId]; exact hschemas,
        by rw [hc, ← hleaves.channels, ← hleaves.nextChannelId]; exact hchannels⟩ :
        (w.performAll options (call :: calls)).schemas.values =
            w.schemas.values ++ schemasFrom w.nextSchemaId (call :: calls) ∧
          (w.performAll options (call :: calls)).channels.values =
            w.channels.values ++ channelsFrom w.nextChannelId (call :: calls))
    cases call with
    | registerSchema info =>
      have hset := hvalues w.schemas w.nextSchemaId
        { id := w.nextSchemaId, name := info.name, encoding := info.encoding, data := info.data }
        fun hmem => Nat.lt_irrefl _ (h.schemas _ hmem)
      refine ⟨?_, hchannels⟩
      refine hschemas.trans ?_
      show (w.schemas.set _ _).values ++ _ = _
      rw [hset, List.append_assoc]
      rfl
    | registerChannel info =>
      have hset := hvalues w.channels w.nextChannelId
        { id := w.nextChannelId, schemaId := info.schemaId, topic := info.topic,
          messageEncoding := info.messageEncoding, metadata := info.metadata }
        fun hmem => Nat.lt_irrefl _ (h.channels _ hmem)
      refine ⟨hschemas, ?_⟩
      refine hchannels.trans ?_
      show (w.channels.set _ _).values ++ _ = _
      rw [hset, List.append_assoc]
      rfl
    | addMessage message => exact hsame (leaves_addMessage options message w) rfl rfl
    | addAttachment a | addMetadata m => exact ⟨hschemas, hchannels⟩

theorem Agrees.registry (h : Agrees w told)
    (hschemas : ∀ id s, w.schemas.get? id = some s → w'.schemas.get? id = some s)
    (hchannels : ∀ id c, w.channels.get? id = some c → w'.channels.get? id = some c)
    (hwritten : w'.writtenSchemaIds = w.writtenSchemaIds ∧ w'.writtenChannelIds = w.writtenChannelIds) :
    Agrees w' told where
  schema s hs := hschemas _ _ (h.schema s hs)
  channel c hc := hchannels _ _ (h.channel c hc)
  writtenSchema id hid := by
    rw [hwritten.1] at hid
    obtain ⟨s, hs, hmem⟩ := h.writtenSchema id hid
    exact ⟨s, hschemas _ _ hs, hmem⟩
  writtenChannel id hid := by
    rw [hwritten.2] at hid
    obtain ⟨c, hc, hmem⟩ := h.writtenChannel id hid
    rw [hwritten.1]
    exact ⟨c, hchannels _ _ hc, hmem⟩
  ordered := h.ordered

theorem get?_set_fresh {V : Type} {d : Dict Nat V} {next : Nat} (h : ∀ id ∈ d.keys, id < next) (v : V) :
    ∀ id x, d.get? id = some x → (d.set next v).get? id = some x := by
  intro id x hget
  have hne : id ≠ next := by
    rintro rfl
    exact Nat.lt_irrefl _ (h id (List.mem_map_of_mem (f := Prod.fst) (Dict.get?_eq_some.mp hget)))
  rw [Dict.get?_set_ne hne, hget]

/-- **A writer, its journal and what it has been told.** -/
structure Balanced (options : McapWriterOptions) (B : Base) (w : McapWriter)
    (told : List TypedMcapRecord) : Prop where
  registered : Registered w
  fresh : Fresh w
  agrees : Agrees w told
  journaled : ∃ flushed pending inner, Laid options B w flushed pending inner none ∧
    Told options B w flushed pending inner told

/-- **A call.** -/
theorem Balanced.perform (h : Balanced options B w told) (hcompression : CompressionFits options)
    (call : Call) (hsound : call.Sound options w) :
    Balanced options B (call.perform options w) (told ++ toldOf options w call) := by
  obtain ⟨flushed, pending, inner, hlaid, ht⟩ := h.journaled
  have hfresh : Fresh (call.perform options w) := fresh_perform options h.fresh call
  cases call with
  | registerSchema info =>
    rw [show toldOf options w (.registerSchema info) = [] from rfl, List.append_nil]
    refine ⟨registered_registerSchema h.registered info, hfresh,
      h.agrees.registry (get?_set_fresh h.fresh.schemas _) (fun _ _ => id) ⟨rfl, rfl⟩,
      flushed, pending, inner, hlaid.congr rfl rfl rfl rfl rfl, ht.congr ?_ ?_ rfl rfl⟩
    · exact fun hne => ht.used fun hnone => hne (by
        show w.statistics.map _ = none
        rw [hnone]
        rfl)
    · intro s hs
      obtain ⟨s', hs', rfl⟩ := Option.map_eq_some_iff.mp hs
      exact { ht.counts s' hs' with }
  | registerChannel info =>
    rw [show toldOf options w (.registerChannel info) = [] from rfl, List.append_nil]
    refine ⟨registered_registerChannel h.registered info, hfresh,
      h.agrees.registry (fun _ _ => id) (get?_set_fresh h.fresh.channels _) ⟨rfl, rfl⟩,
      flushed, pending, inner, hlaid.congr rfl rfl rfl rfl rfl, ht.congr ?_ ?_ rfl rfl⟩
    · exact fun hne => ht.used fun hnone => hne (by
        show w.statistics.map _ = none
        rw [hnone]
        rfl)
    · intro s hs
      obtain ⟨s', hs', rfl⟩ := Option.map_eq_some_iff.mp hs
      exact { ht.counts s' hs' with }
  | addMessage message =>
    obtain ⟨hknown, hrest⟩ := hsound
    rcases hneed : (counted message w).needChannel message.channelId with e | w'
    · -- the message is refused, so that messages are not counted
      have hrun : w.addMessage options message = _ := addMessage_eq_error hneed
      have htold : toldOf options w (.addMessage message) = [] := by
        simp only [toldOf, hrun]
      have hnone : w.statistics = none := by
        by_contra hne
        have hok := (h.agrees.accepted_iff options h.registered message).mpr
          (hknown (ht.used hne))
        rw [hrun] at hok
        cases hok
      have hsame : Call.perform options w (.addMessage message) = w := by
        show (w.addMessage options message).2 = w
        rw [hrun]
        unfold counted
        rw [hnone]
        cases w
        cases hnone
        rfl
      rw [htold, List.append_nil, hsame]
      exact h
    · have htold : toldOf options w (.addMessage message) =
          definitionsFor w message.channelId ++ [.message message] := by
        simp only [toldOf, addMessage_eq_ok hneed]
      obtain ⟨hagrees, hknown'⟩ := h.agrees.addMessage options h.registered hneed
      obtain ⟨hfits, hroom⟩ := hrest hknown'
      obtain ⟨closed, pending', inner', hlaid', hcontents, hleaves, hsome, hcloses⟩ :=
        hlaid.addMessage h.registered hneed
      rw [htold]
      refine ⟨h.registered.leaves hleaves, hfresh, hagrees, flushed ++ closed, pending', inner', hlaid', ?_⟩
      exact ht.addMessage hlaid hcompression (definitionsFor_content w message.channelId) hfits hroom
        hlaid' (by rw [hcontents, List.append_assoc]) hleaves hsome hcloses
  | addAttachment a =>
    rw [show toldOf options w (.addAttachment a) = [] from rfl, List.append_nil]
    exact ⟨⟨h.registered.schemas, h.registered.channels⟩, hfresh, h.agrees.congr ⟨rfl, rfl, rfl, rfl⟩,
      _, _, _, hlaid.addAttachment a, ht.addAttachment hlaid hsound⟩
  | addMetadata m =>
    rw [show toldOf options w (.addMetadata m) = [] from rfl, List.append_nil]
    exact ⟨⟨h.registered.schemas, h.registered.channels⟩, hfresh, h.agrees.congr ⟨rfl, rfl, rfl, rfl⟩,
      _, _, _, hlaid.addMetadata m, ht.addMetadata hlaid hsound⟩

/-- Calls of a run, each of them sound. -/
def AllSound (options : McapWriterOptions) (w : McapWriter) (calls : List Call) : Prop :=
  ∀ before call after, calls = before ++ call :: after →
    call.Sound options (w.performAll options before)

/-- **Any calls** that are sound: the messages that are told of are those that are accepted. -/
theorem Balanced.performAll (calls : List Call) (h : Balanced options B w told)
    (hcompression : CompressionFits options) (hsound : AllSound options w calls) :
    ∃ more, Balanced options B (w.performAll options calls) (told ++ more) ∧
      messagesOf more = accepted options w calls := by
  induction calls generalizing w told with
  | nil => exact ⟨[], by rw [List.append_nil]; exact h, rfl⟩
  | cons call calls ih =>
    obtain ⟨more, hbalanced, hmessages⟩ := ih (h.perform hcompression call (hsound [] call calls rfl))
      fun before call' after heq => hsound (call :: before) call' after (by rw [heq]; rfl)
    refine ⟨toldOf options w call ++ more, by rw [← List.append_assoc]; exact hbalanced, ?_⟩
    rw [messagesOf_append, messagesOf_toldOf, hmessages]
    rfl

end

end Ts
end Mcap

import Mcap.Attaching
import Mcap.MessageRoundTrip
import Mcap.RecordExtension
import Mcap.SummaryRuns

/-! # The summary of a file is the summary that `finish` returns

`Summary::read` finds the summary section behind the footer, and collects its records into a
new `Summary`.  For a file of the writer these are the records of the groups, their offsets
and the footer (`reads_file`), so what it comes to is a function of the summary the file was
written from (`summaryResult_groups`).  With all groups written it is that summary
(`summary_round_trip`).

Strings have to fit their 32-bit lengths.  `StringFits` holds of every name that is read, so a
longer one does not come back (`summary_differs`).
-/
namespace Mcap

/-! ## The summary section of a file -/

theorem frame_footer (footer : Footer) :
    (Record.footer footer).frame = (op.FOOTER :: le 8 20) ++ footer.bytes := by
  have hbody : footer.bytes.length = 20 := by simp [Footer.bytes]
  rw [Record.frame, frame_eq, Record.body, Record.opcode, hbody]
  rfl

theorem parseFooter_frame (footer : Footer) :
    SummaryReader.parseFooter ((Record.footer footer).frame ++ MAGIC) FOOTER_RECORD_AND_END_MAGIC =
      .ok footer := by
  have hbody : footer.bytes.length = 20 := by simp [Footer.bytes]
  have hhead : (op.FOOTER :: le 8 20).length = 9 := by simp
  have hlen : (Record.footer footer).frame.length = 29 := by
    rw [frame_footer, List.length_append, hhead, hbody]
  have hread : readLeFrom Footer.read footer.bytes = .ok (footer, ⟨[], footer.bytes.length⟩) := by
    have h := (Footer.reads footer).readLeFrom []
    rwa [List.append_nil] at h
  have hmagic : (((Record.footer footer).frame ++ MAGIC).take 37).drop 29 = MAGIC := by
    rw [List.take_of_length_le (by rw [List.length_append, hlen]; decide)]
    exact List.drop_left' hlen
  have hfields : (((Record.footer footer).frame ++ MAGIC).drop 9).take 20 = footer.bytes := by
    rw [frame_footer, List.append_assoc, List.drop_left' hhead]
    exact List.take_left' hbody
  have hopcode : ((Record.footer footer).frame ++ MAGIC).headD 0 = op.FOOTER := by
    rw [frame_footer]
    rfl
  unfold SummaryReader.parseFooter
  simp only [FOOTER_RECORD_AND_END_MAGIC, Nat.reduceSub, hmagic, hfields, hopcode, hread]
  rfl

theorem lastFooter_frame (front : Bytes) (hfront : 8 ≤ front.length) (footer : Footer) :
    lastFooter (front ++ ((Record.footer footer).frame ++ MAGIC)) = .ok footer := by
  have hbody : footer.bytes.length = 20 := by simp [Footer.bytes]
  have hlen : (front ++ ((Record.footer footer).frame ++ MAGIC)).length =
      front.length + FOOTER_RECORD_AND_END_MAGIC := by
    rw [List.length_append, List.length_append, frame_footer, List.length_append, hbody]
    rfl
  rw [lastFooter, hlen, Nat.add_sub_cancel, List.drop_left, parseFooter_frame,
    if_neg (by rw [FOOTER_RECORD_AND_END_MAGIC]; omega)]

section
variable {δ : Type} {D : Decompressor δ} {o : WriteOptions} {es : List Entry} {groups : List Group}

/-- **What `Summary::read` comes to on a file of the writer** with a summary section. -/
theorem reads_file (hplain : ∀ r ∈ groupRecords groups, r.Plain) (hne : groupRecords groups ≠ [])
    (hlen : (fileBytes o es groups).length ≤ ISIZE_MAX) :
    Summary.Reads D (fileBytes o es groups) (summaryResult .empty .empty
      ((summaryRecords o (dataBytes o es ++ (dataEndOf o es).frame).length groups ++
        [Record.footer (footerOf o (dataBytes o es ++ (dataEndOf o es).frame).length groups)]).map Record.raw)
      .finished) := by
  have husize : ISIZE_MAX < USIZE_MAX := by decide
  have husize' : USIZE_MAX < 2 ^ 64 := by decide
  have hfront : 8 ≤ (dataBytes o es ++ (dataEndOf o es).frame).length := by
    rw [dataBytes, List.length_append, List.length_append]
    have : MAGIC.length = 8 := rfl
    omega
  unfold fileBytes at hlen ⊢
  generalize dataBytes o es ++ (dataEndOf o es).frame = front at *
  generalize hsection : content (summaryRecords o front.length groups) = section_ at *
  generalize hfooter : footerOf o front.length groups = footer at *
  rw [List.append_assoc, List.append_assoc] at hlen ⊢
  -- the section begins behind the data section
  have hpos : 0 < (content (groupRecords groups)).length := by
    obtain ⟨r, rs, hrs⟩ := List.exists_cons_of_ne_nil hne
    rw [hrs]
    show 0 < (r.frame ++ content rs).length
    rw [List.length_append, Record.frame, length_frame]
    omega
  have hstart : footer.summaryStart.toNat = front.length := by
    rw [List.length_append] at hlen
    rw [← hfooter]
    show (UInt64.ofNat (if _ then _ else 0)).toNat = _
    rw [if_pos (by omega), UInt64.toNat_ofNat_of_lt' (show _ < 2 ^ 64 by omega)]
  have hnonzero : footer.summaryStart ≠ 0 := by
    intro hzero
    rw [hzero, UInt64.toNat_zero] at hstart
    omega
  have hlast : lastFooter (front ++ (section_ ++ ((Record.footer footer).frame ++ MAGIC))) = .ok footer := by
    have h := lastFooter_frame (front ++ section_) (by rw [List.length_append]; omega) footer
    rwa [List.append_assoc] at h
  -- all records of the section are within the bytes that are left
  generalize hbytes : front ++ (section_ ++ ((Record.footer footer).frame ++ MAGIC)) = bytes at *
  have hdrop : bytes.drop front.length = section_ ++ ((Record.footer footer).frame ++ MAGIC) := by
    rw [← hbytes, List.drop_left]
  have hleft : bytes.length - front.length =
      section_.length + ((Record.footer footer).frame ++ MAGIC).length := by
    rw [← hbytes, List.length_append, List.length_append]
    omega
  have hframe : 20 ≤ ((Record.footer footer).frame ++ MAGIC).length := by
    rw [List.length_append, Record.frame, length_frame]
    simp [Record.body, Footer.bytes]
  have hadmits : ∀ n, n ≤ bytes.length - front.length →
      Admits (SummaryReader.readerOptions (some (bytes.length - front.length))) n := by
    intro n hn
    exact if_neg (Nat.not_lt.mpr hn)
  refine summary_reads ?_
  unfold SummaryIs
  rw [hlast]
  simp only [if_neg hnonzero, hstart]
  refine ⟨_, _, rfl, observes_of_parses (Δ := noDecoding _ (some (bytes.length - front.length)))
    ?_ (sim_init (o := SummaryReader.readerOptions (some (bytes.length - front.length))) _ _)⟩
  rw [hdrop, ← hsection, ← hfooter]
  exact parses_summary hplain (hadmits _ (by rw [hsection]; omega)) (hadmits _ (by omega))
    (by rw [hsection]; rw [← hbytes, List.length_append, List.length_append] at hlen; omega)

end

/-! ## Collecting its records -/

/-- Records one after the other. -/
def Summary.collectAll (s : Summary × ChannelAccumulator) (rs : List Record) :
    Except McapError (Summary × ChannelAccumulator) :=
  rs.foldlM (fun s r => s.1.collect s.2 r) s

section
variable {s s₁ s₂ : Summary × ChannelAccumulator} {rs rs' : List Record}

theorem Summary.collectAll_append (h : Summary.collectAll s rs = .ok s₁)
    (h' : Summary.collectAll s₁ rs' = .ok s₂) : Summary.collectAll s (rs ++ rs') = .ok s₂ := by
  rw [collectAll] at h ⊢
  rw [List.foldlM_append, h]
  exact h'

theorem summaryResult_collectAll (hfits : ∀ r ∈ rs, r.Fits) (h : Summary.collectAll s rs = .ok s₁) :
    summaryResult s.1 s.2 (rs.map Record.raw) .finished = .ok (some (s₁.1.complete s₁.2)) := by
  induction rs generalizing s with
  | nil =>
    cases h
    rfl
  | cons r rs ih =>
    obtain ⟨hr, hrs⟩ := List.forall_mem_cons.mp hfits
    rw [Summary.collectAll, List.foldlM_cons] at h
    obtain ⟨s', hc, h⟩ := bind_eq_ok h
    rw [List.map_cons, Record.raw, summaryResult, parse_body hr]
    simp only [hc]
    exact ih hrs h

theorem Summary.collectAll_skip (h : ∀ r ∈ rs, s.1.collect s.2 r = .ok s) :
    Summary.collectAll s rs = .ok s := by
  induction rs with
  | nil => rfl
  | cons r rs ih =>
    obtain ⟨hr, hrs⟩ := List.forall_mem_cons.mp h
    rw [collectAll, List.foldlM_cons, hr]
    exact ih hrs

theorem Summary.collectAll_schemas (summary : Summary) (acc : ChannelAccumulator)
    {l : List (UInt16 × Schema)} (hl : (l.map Prod.fst).Nodup)
    (hid : ∀ e ∈ l, e.2.id = e.1 ∧ e.1 ≠ 0) (hnew : ∀ e ∈ l, acc.schemas[e.1]? = none) :
    Summary.collectAll (summary, acc) (l.map Summary.schemaRecord) =
      .ok (summary, { acc with schemas := acc.schemas.insertAll l }) := by
  induction l generalizing acc with
  | nil => rfl
  | cons e l ih =>
    rw [List.map_cons, List.nodup_cons] at hl
    obtain ⟨⟨hself, hz⟩, hid⟩ := List.forall_mem_cons.mp hid
    obtain ⟨hnone, hnew⟩ := List.forall_mem_cons.mp hnew
    have hcollect : summary.collect acc (Summary.schemaRecord e) =
        .ok (summary, { acc with schemas := acc.schemas.insert e.1 e.2 }) := by
      obtain ⟨id, schema⟩ := e
      obtain rfl : schema.id = id := hself
      simp only [Summary.schemaRecord, collect, ChannelAccumulator.addSchema]
      rw [if_neg hz, hnone]
      rfl
    rw [List.map_cons, collectAll, List.foldlM_cons, hcollect]
    refine ih _ hl.2 hid fun e' he' => ?_
    have hne : e.1 ≠ e'.1 := fun heq => hl.1 (heq ▸ List.mem_map_of_mem he')
    exact (BTreeMap.getElem?_insert_ne _ hne _).trans (hnew e' he')

theorem Summary.collectAll_channels (summary : Summary) (acc : ChannelAccumulator)
    {l : List (UInt16 × Channel)} (hl : (l.map Prod.fst).Nodup)
    (hid : ∀ e ∈ l, e.2.id = e.1) (hnew : ∀ e ∈ l, acc.channels[e.1]? = none)
    (hschema : ∀ e ∈ l, ∀ acc' : ChannelAccumulator, acc'.schemas = acc.schemas → ∀ chan,
      Summary.channelRecord e = .channel chan → acc'.schemaOf chan = .ok e.2.schema) :
    Summary.collectAll (summary, acc) (l.map Summary.channelRecord) =
      .ok (summary, { acc with channels := acc.channels.insertAll l }) := by
  induction l generalizing acc with
  | nil => rfl
  | cons e l ih =>
    rw [List.map_cons, List.nodup_cons] at hl
    obtain ⟨hself, hid⟩ := List.forall_mem_cons.mp hid
    obtain ⟨hnone, hnew⟩ := List.forall_mem_cons.mp hnew
    obtain ⟨href, hschema⟩ := List.forall_mem_cons.mp hschema
    have hcollect : summary.collect acc (Summary.channelRecord e) =
        .ok (summary, { acc with channels := acc.channels.insert e.1 e.2 }) := by
      obtain ⟨id, channel⟩ := e
      obtain rfl : channel.id = id := hself
      have hs := href acc rfl _ rfl
      simp only [Summary.channelRecord, collect, ChannelAccumulator.addChannel, hs]
      simp only [hnone]
      rfl
    rw [List.map_cons, collectAll, List.foldlM_cons, hcollect]
    refine ih _ hl.2 hid (fun e' he' => ?_) hschema
    have hne : e.1 ≠ e'.1 := fun heq => hl.1 (heq ▸ List.mem_map_of_mem he')
    exact (BTreeMap.getElem?_insert_ne _ hne _).trans (hnew e' he')

theorem Summary.collectAll_indexes {α : Type} (record : α → Record) (add : Summary → List α → Summary)
    (summary : Summary) (acc : ChannelAccumulator)
    (hadd : ∀ (summary : Summary) a, summary.collect acc (record a) = .ok (add summary [a], acc))
    (hnil : ∀ summary, add summary [] = summary)
    (happend : ∀ summary l l', add (add summary l) l' = add summary (l ++ l')) (l : List α) :
    Summary.collectAll (summary, acc) (l.map record) = .ok (add summary l, acc) := by
  induction l generalizing summary with
  | nil => rw [hnil]; rfl
  | cons a l ih =>
    rw [List.map_cons, collectAll, List.foldlM_cons, hadd]
    refine (ih _).trans ?_
    rw [happend]
    rfl

end

/-! ## The groups of a summary -/

/-- All groups of the summary section are written. -/
structure WriteOptions.SummaryFull (o : WriteOptions) : Prop where
  statistics : o.emitStatistics = true
  chunkIndexes : o.emitChunkIndexes = true
  attachmentIndexes : o.emitAttachmentIndexes = true
  metadataIndexes : o.emitMetadataIndexes = true
  schemas : o.repeatSchemas = true
  channels : o.repeatChannels = true

/-- All groups of the summary section, and nothing else. -/
def fullOptions : WriteOptions :=
  { plainOptions with
    emitStatistics := true
    emitChunkIndexes := true
    emitAttachmentIndexes := true
    emitMetadataIndexes := true
    repeatChannels := true
    repeatSchemas := true }

theorem summaryFull_fullOptions : fullOptions.SummaryFull := ⟨rfl, rfl, rfl, rfl, rfl, rfl⟩

section
variable {o : WriteOptions} (order : HashOrder) {summary : Summary} {d : Definitions}

theorem groupRecords_groupIf (opcode : UInt8) (records : List Record) :
    groupRecords (groupIf (true && !records.isEmpty) opcode records) = records := by
  cases records with
  | nil => rfl
  | cons r rs =>
    simp only [List.isEmpty_cons, Bool.not_false, Bool.and_self, groupIf, if_true, groupRecords,
      List.flatMap_singleton]

theorem groupRecords_groupIf_map {α : Type} (opcode : UInt8) (f : α → Record) (l : List α) :
    groupRecords (groupIf (true && !l.isEmpty) opcode (l.map f)) = l.map f := by
  have h := groupRecords_groupIf opcode (l.map f)
  rwa [List.isEmpty_map] at h

theorem groupRecords_summaryGroups (hfull : o.SummaryFull) {stats : Statistics}
    (hstats : summary.stats = some stats) : groupRecords (summaryGroups o order summary) =
      (order.schemas summary.schemas).map Summary.schemaRecord ++
        (order.channels summary.channels).map Summary.channelRecord ++ [.statistics stats] ++
        summary.chunkIndexes.map .chunkIndex ++ summary.attachmentIndexes.map .attachmentIndex ++
        summary.metadataIndexes.map .metadataIndex := by
  have happend : ∀ gs gs', groupRecords (gs ++ gs') = groupRecords gs ++ groupRecords gs' :=
    fun _ _ => List.flatMap_append
  rw [summaryGroups, hfull.statistics, hfull.chunkIndexes, hfull.attachmentIndexes,
    hfull.metadataIndexes, hfull.schemas, hfull.channels, hstats]
  simp only [happend, groupRecords_groupIf, groupRecords_groupIf_map]
  rfl

/-- The schemas and channels of the summary are those that are defined. -/
structure Summary.Tells (summary : Summary) (d : Definitions) : Prop where
  schemas : ∀ id, summary.schemas[id]? = d.schemaAt id
  channels : ∀ id, summary.channels[id]? = d.channelAt id

theorem Summary.Tells.collectAll_schemas (h : summary.Tells d) (hc : d.Closed) (s : Summary) :
    Summary.collectAll (s, .empty) ((order.schemas summary.schemas).map Summary.schemaRecord) =
      .ok (s, ⟨summary.schemas, ∅⟩) := by
  have hperm := order.schemas_perm summary.schemas
  have hl := (hperm.map Prod.fst).nodup_iff.mpr (BTreeMap.nodup_keys_toList summary.schemas)
  have hall := Summary.collectAll_schemas s .empty hl ?_ fun _ _ => rfl
  · rw [hall]
    show Except.ok (s, (⟨BTreeMap.insertAll ∅ _, ∅⟩ : ChannelAccumulator)) = _
    rw [BTreeMap.insertAll_of_perm hperm]
  · rintro ⟨id, schema⟩ he
    have hid := BTreeMap.mem_toList.mp (hperm.mem_iff.mp he)
    rw [h.schemas] at hid
    obtain ⟨content, hcontent, rfl⟩ := Option.map_eq_some_iff.mp hid
    refine ⟨rfl, ?_⟩
    rintro rfl
    rw [hc.zero] at hcontent
    cases hcontent

theorem Summary.Tells.collectAll_channels (h : summary.Tells d) (hc : d.Closed) (s : Summary) :
    Summary.collectAll (s, ⟨summary.schemas, ∅⟩)
      ((order.channels summary.channels).map Summary.channelRecord) =
      .ok (s, ⟨summary.schemas, summary.channels⟩) := by
  have hperm := order.channels_perm summary.channels
  have hl := (hperm.map Prod.fst).nodup_iff.mpr (BTreeMap.nodup_keys_toList summary.channels)
  have hchannel : ∀ e ∈ order.channels summary.channels, ∃ content, d.channels e.1 = some content ∧
      e.2 = content.channel e.1 (d.schemaAt content.schemaId) := by
    rintro ⟨id, channel⟩ he
    have hid := BTreeMap.mem_toList.mp (hperm.mem_iff.mp he)
    rw [h.channels] at hid
    obtain ⟨content, hcontent, rfl⟩ := Option.map_eq_some_iff.mp hid
    exact ⟨content, hcontent, rfl⟩
  have hall := Summary.collectAll_channels s ⟨summary.schemas, ∅⟩ hl ?_
    (fun _ _ => rfl) ?_
  · rw [hall]
    show Except.ok (s, (⟨_, BTreeMap.insertAll ∅ _⟩ : ChannelAccumulator)) = _
    rw [BTreeMap.insertAll_of_perm hperm]
  · intro e he
    obtain ⟨content, -, hcontent⟩ := hchannel e he
    rw [hcontent]
    rfl
  · intro e he acc' hacc chan hrecord
    obtain ⟨content, hcontent, hchan⟩ := hchannel e he
    have href := hc.schema _ _ hcontent
    have hid : chan.schemaId = content.schemaId := by
      cases hrecord
      rw [hchan]
      exact hc.schemaId href
    rw [ChannelAccumulator.schemaOf_known (d := d) (fun id => by rw [hacc]; exact h.schemas id) hc
      (by rw [hid]; exact href), hid, hchan]
    rfl

/-- **The records of a summary that is written in full give the summary back.** -/
theorem Summary.Tells.summaryResult (h : summary.Tells d) (hc : d.Closed) (hfull : o.SummaryFull)
    (hstats : summary.stats ≠ none)
    (hfits : ∀ r ∈ groupRecords (summaryGroups o order summary), r.Fits) (pos : Nat) :
    summaryResult .empty .empty ((summaryRecords o pos (summaryGroups o order summary) ++
        [Record.footer (footerOf o pos (summaryGroups o order summary))]).map Record.raw) .finished =
      .ok (some summary) := by
  obtain ⟨stats, hstats⟩ := Option.ne_none_iff_exists'.mp hstats
  have hrecords := groupRecords_summaryGroups order hfull hstats
  generalize hgroups : summaryGroups o order summary = groups at *
  generalize footerOf o pos groups = footer
  -- the groups one after the other
  have hall : Summary.collectAll (.empty, .empty) (groupRecords groups) =
      .ok ({ summary with stats := some stats, schemas := ∅, channels := ∅ },
        ⟨summary.schemas, summary.channels⟩) := by
    rw [hrecords]
    have hdefs := Summary.collectAll_append (h.collectAll_schemas order hc .empty)
      (h.collectAll_channels order hc .empty)
    have hstatistics : Summary.collectAll (.empty, ⟨summary.schemas, summary.channels⟩)
        [.statistics stats] = .ok ({ Summary.empty with stats := some stats }, _) := rfl
    have hchunks := Summary.collectAll_indexes .chunkIndex
      (fun s l => { s with chunkIndexes := s.chunkIndexes ++ l })
      { Summary.empty with stats := some stats } ⟨summary.schemas, summary.channels⟩ (fun _ _ => rfl)
      (fun s => by rw [List.append_nil]) (fun s l l' => by rw [List.append_assoc])
      summary.chunkIndexes
    have hattachments := Summary.collectAll_indexes .attachmentIndex
      (fun s l => { s with attachmentIndexes := s.attachmentIndexes ++ l })
      { Summary.empty with stats := some stats, chunkIndexes := [] ++ summary.chunkIndexes }
      ⟨summary.schemas, summary.channels⟩ (fun _ _ => rfl)
      (fun s => by rw [List.append_nil]) (fun s l l' => by rw [List.append_assoc])
      summary.attachmentIndexes
    have hmetadata := Summary.collectAll_indexes .metadataIndex
      (fun s l => { s with metadataIndexes := s.metadataIndexes ++ l })
      { Summary.empty with
        stats := some stats
        chunkIndexes := [] ++ summary.chunkIndexes
        attachmentIndexes := [] ++ summary.attachmentIndexes }
      ⟨summary.schemas, summary.channels⟩ (fun _ _ => rfl)
      (fun s => by rw [List.append_nil]) (fun s l l' => by rw [List.append_assoc])
      summary.metadataIndexes
    exact Summary.collectAll_append (Summary.collectAll_append (Summary.collectAll_append
      (Summary.collectAll_append hdefs hstatistics) hchunks) hattachments) hmetadata
  -- the offsets and the footer are passed over
  have hrest : ∀ r ∈ offsetRecords o pos groups ++ [Record.footer footer], r.Fits ∧
      ∀ (s : Summary) acc, s.collect acc r = .ok (s, acc) := by
    intro r hr
    rcases List.mem_append.mp hr with hoffset | hfooter
    · unfold offsetRecords at hoffset
      split at hoffset
      · obtain ⟨i, -, rfl⟩ := List.mem_map.mp hoffset
        exact ⟨trivial, fun _ _ => rfl⟩
      · cases hoffset
    · cases List.mem_singleton.mp hfooter
      exact ⟨trivial, fun _ _ => rfl⟩
  rw [summaryRecords, List.append_assoc]
  refine (summaryResult_collectAll (List.forall_mem_append.mpr ⟨hfits, fun r hr => (hrest r hr).1⟩)
    (Summary.collectAll_append hall (Summary.collectAll_skip fun r hr => (hrest r hr).2 _ _))).trans ?_
  show Res.ok (some { summary with stats := some stats }) = _
  rw [← hstats]

end

/-! ## The summary of a session -/

section
variable {σ : Type} [Encoders σ] {w w' : Writer σ Stream} {o : WriteOptions}
  {calls : List (Op × Res McapError Reply)} {order : HashOrder} {summary : Summary}

/-- **The summary that `finish` returns is the one that `Summary::read` reads.**  All calls of
a session succeed, no schema gets the id 0, all groups of the summary section are written, and
what they repeat of the calls fits. -/
theorem summary_round_trip {δ : Type} {D : Decompressor δ}
    (hsession : Writer.Session
      (fun _ op res => (∃ reply, res = .ok reply) ∧ op.Keeps Record.FitsSummary o) o calls w)
    (hfull : o.SummaryFull) (hzero : (definitionsOf calls).schemas 0 = none)
    (hfin : Writer.finish order w = (.ok summary, w')) :
    ∃ bytes, w'.Produced bytes ∧
      (bytes.length ≤ ISIZE_MAX → Summary.Reads D bytes (.ok (some summary))) := by
  obtain ⟨j, hj⟩ := hsession.faithful_of_ok trivial fun _ _ _ hp => hp
  have hd := definitionsOf_calls hsession fun _ _ _ hp => hp.1
  obtain ⟨w₁, es, schemas, channels, -, hrec, hflat, hcore, hs, hch, rfl, hfile⟩ :=
    hj.recorded.finish hfin
  refine ⟨_, hfile, fun hlen => ?_⟩
  have hledger : w₁.ledger = w.ledger := Writer.ledger_of_core hcore
  have hafter : w₁.ledger = Ledger.empty.after (es.flatMap Entry.flat) := by
    rw [hledger, hj.ledger, hflat]
  have hall : Ledger.empty.AllowsAll (es.flatMap Entry.flat) := by
    rw [hflat]
    exact hj.allowed
  have hkept : ∀ r ∈ es.flatMap Entry.flat, r.FitsSummary := by
    rw [hflat]
    exact hj.kept
  have hz : (Ledger.empty.after (es.flatMap Entry.flat)).definitions.schemas 0 = none := by
    rw [← hafter, hledger, hd, hzero]
  -- the schemas and channels of the summary are those of the session
  obtain ⟨hclosed, -⟩ := Ledger.closed_after ⟨rfl, fun _ _ h => by cases h⟩ hall hz
  rw [← hafter] at hclosed
  have htells : (w₁.summaryWith schemas channels).Tells w₁.ledger.definitions :=
    ⟨Writer.summarySchemas_eq hs, Writer.summaryChannels_eq hs hch⟩
  have hknows : (⟨schemas, channels⟩ : ChannelAccumulator).Knows w₁.ledger.definitions :=
    ⟨htells.schemas, htells.channels⟩
  have hsettled := summary_settled hrec.shows_.booked hrec.options rfl hs hch hkept hafter hknows
    hclosed order
  have hne : groupRecords (summaryGroups o order (w₁.summaryWith schemas channels)) ≠ [] := by
    rw [groupRecords_summaryGroups order hfull rfl]
    simp
  have hreads : Summary.Reads D _ _ := reads_file (plain_summaryGroups order _) hne hlen
  rwa [htells.summaryResult order hclosed hfull (Option.some_ne_none _) fun r hr => (hsettled r hr).1]
    at hreads

end

/-- Two messages in a chunk, an attachment and a metadata record. -/
def summarizedOps : List Op :=
  twoMessages ++ [.attach ⟨1, 2, "a", "", [3]⟩, .writeMetadata ⟨"m", ∅⟩]

/-- A file with records of every kind in its summary. -/
theorem summary_round_trip_summarized : ∃ (calls : List (Op × Res McapError Reply))
    (w w' : Writer Empty Stream) (summary : Summary) (bytes : Bytes),
    Writer.Session (fun _ op res => (∃ reply, res = .ok reply) ∧ op.Keeps Record.FitsSummary
        { fullOptions with useChunks := true }) { fullOptions with useChunks := true } calls w ∧
      calls.map Prod.fst = summarizedOps ∧ Writer.finish .byId w = (.ok summary, w') ∧
      w'.Produced bytes ∧ Summary.Reads storedLz4 bytes (.ok (some summary)) := by
  have hstart : Writer.Session (fun _ op res => (∃ reply, res = .ok reply) ∧
      op.Keeps Record.FitsSummary { fullOptions with useChunks := true })
    { fullOptions with useChunks := true } [] (_ : Writer Empty Stream) := .start rfl
  have hkeeps : ∀ op ∈ summarizedOps,
      op.Keeps Record.FitsSummary { fullOptions with useChunks := true } := by
    have hstring : StringFits "" ∧ StringFits "s" ∧ StringFits "t" ∧ StringFits "a" ∧ StringFits "m" := by
      decide
    refine List.forall_mem_cons.mpr ⟨fun _ => ⟨hstring.2.1, hstring.1, by decide⟩,
      List.forall_mem_cons.mpr ⟨fun _ => ⟨hstring.2.2.1, hstring.1, stringMapFits_empty⟩,
        List.forall_mem_cons.mpr ⟨trivial, List.forall_mem_cons.mpr ⟨⟨fun s hs => ?_,
          ⟨hstring.2.2.1, hstring.1, stringMapFits_empty⟩, trivial⟩, List.forall_mem_cons.mpr
            ⟨fun _ _ => ⟨hstring.2.2.2.1, hstring.1⟩, List.forall_mem_singleton.mpr
              hstring.2.2.2.2⟩⟩⟩⟩⟩
    cases hs
  have hrun : ∃ calls w, Writer.Session (fun _ op res => (∃ reply, res = .ok reply) ∧
        op.Keeps Record.FitsSummary { fullOptions with useChunks := true })
      { fullOptions with useChunks := true } calls w ∧ calls.map Prod.fst = summarizedOps ∧
      (definitionsOf calls).schemas 0 = none ∧
      (Writer.finish .byId (w : Writer Empty Stream)).1.isOk = true ∧
      (Writer.finish .byId (w : Writer Empty Stream)).2.bytes.all (·.length ≤ ISIZE_MAX) = true :=
    ⟨_, _, hstart.runAllOk hkeeps (by decide +kernel), List.map_fst_zip (by decide +kernel),
      by decide +kernel, by decide +kernel, by decide +kernel⟩
  obtain ⟨calls, w, hsession, hops, hzero, hok, hlen⟩ := hrun
  obtain ⟨summary, w', hfin⟩ := Res.exists_of_isOk hok
  obtain ⟨bytes, hfile, hreads⟩ := summary_round_trip (D := storedLz4) hsession
    ⟨rfl, rfl, rfl, rfl, rfl, rfl⟩ hzero hfin
  rw [hfin, hfile.bytes_eq] at hlen
  exact ⟨calls, w, w', summary, bytes, hsession, hops, hfin, hfile, hreads (of_decide_eq_true hlen)⟩

/-! ## Names that are too long -/

/-- The names of the attachments fit. -/
def Summary.NamesFit (summary : Summary) : Prop := ∀ i ∈ summary.attachmentIndexes, StringFits i.name

theorem gives_string : Gives readString StringFits := by
  refine (Gives.le BinError.io 4).bind fun len hlen => (Gives.exact BinError.io len).bind fun bs hbs =>
    (Gives.any _).bind fun c _ => ?_
  cases hs : String.fromUTF8? ⟨bs.toArray⟩ with
  | none => exact Gives.throw _ _
  | some s =>
    refine Gives.pure ?_
    have hsize : (utf8 s).length = bs.length := by
      unfold String.fromUTF8? at hs
      split at hs
      · cases hs
        rfl
      · cases hs
    show (utf8 s).length < 2 ^ 32
    rw [hsize, hbs]
    exact hlen

theorem Gives.readLeFrom {α : Type} {p : Read BinError α} {P : α → Prop} (h : Gives p P)
    {body : Bytes} {a : α} {c : Cursor} (hread : Mcap.readLeFrom p body = .ok (a, c)) : P a :=
  h _ _ _ (readLeFrom_eq_ok hread)

theorem gives_attachmentIndex : Gives AttachmentIndex.read fun i => StringFits i.name :=
  (Gives.any _).bind fun _ _ => (Gives.any _).bind fun _ _ => (Gives.any _).bind fun _ _ =>
    (Gives.any _).bind fun _ _ => (Gives.any _).bind fun _ _ => gives_string.bind fun _ h =>
      (Gives.any _).bind fun _ _ => Gives.pure h

theorem fits_of_parse {opcode : UInt8} {data : Bytes} {i : AttachmentIndex}
    (hp : parseRecord opcode data = .ok (.attachmentIndex i)) : StringFits i.name := by
  obtain rfl : op.ATTACHMENT_INDEX = opcode := parse_opcode hp
  have h : parseBody AttachmentIndex.read .attachmentIndex data = .ok (.attachmentIndex i) := hp
  unfold parseBody at h
  split at h
  · rename_i a c hread
    cases h
    exact gives_attachmentIndex.readLeFrom hread
  · cases h

theorem Summary.NamesFit.collect {summary summary' : Summary} {acc acc' : ChannelAccumulator}
    {r : Record} (h : summary.NamesFit) (hr : ∀ i, r = .attachmentIndex i → StringFits i.name)
    (hc : summary.collect acc r = .ok (summary', acc')) : summary'.NamesFit := by
  have hsame {x : Except McapError ChannelAccumulator}
      (hx : (fun channeler => (summary, channeler)) <$> x = .ok (summary', acc')) :
      summary'.NamesFit := by
    cases x <;> cases hx
    exact h
  cases r with
  | attachmentIndex i =>
    cases hc
    intro i' hi'
    rcases List.mem_append.mp hi' with hold | hnew
    · exact h i' hold
    · cases List.mem_singleton.mp hnew
      exact hr i rfl
  | schema | channel => exact hsame hc
  | _ =>
    cases hc
    exact h

/-- **Names that have been read fit.** -/
theorem Summary.NamesFit.result {summary s : Summary} {acc : ChannelAccumulator}
    {evs : List (UInt8 × Bytes)} {fin : Final} (h : summary.NamesFit)
    (hresult : summaryResult summary acc evs fin = .ok (some s)) : s.NamesFit := by
  induction evs generalizing summary acc with
  | nil =>
    cases fin with
    | finished =>
      cases hresult
      exact h
    | failed e => cases hresult
    | panicked => cases hresult
  | cons ev evs ih =>
    obtain ⟨opcode, data⟩ := ev
    rw [summaryResult.eq_def] at hresult
    simp only at hresult
    rcases hp : parseRecord opcode data with r | e | _
    · simp only [hp] at hresult
      rcases hc : summary.collect acc r with e | ⟨summary', acc'⟩
      · simp only [hc] at hresult
        cases hresult
      · simp only [hc] at hresult
        exact ih (h.collect (fun i hi => fits_of_parse (hi ▸ hp)) hc) hresult
    · simp only [hp] at hresult
      cases hresult
    · simp only [hp] at hresult
      cases hresult

theorem Summary.Reads.unique {δ : Type} {D : Decompressor δ} {mcap : Bytes}
    {R R' : Res McapError (Option Summary)} (h : Summary.Reads D mcap R)
    (h' : Summary.Reads D mcap R') : R = R' := by
  obtain ⟨N, hN⟩ := h
  obtain ⟨M, hM⟩ := h'
  exact Option.some.inj ((hN _ (Nat.le_max_left N M)).symm.trans (hM _ (Nat.le_max_right N M)))

/-! ## A session with a name of any length -/

theorem dataBytes_of_shows {σ : Type} [Encoders σ] {w : Writer σ Stream} {es es' : List Entry}
    (h : Shows w ⟨es, .raw⟩) (h' : Shows w ⟨es', .raw⟩) :
    dataBytes w.options es = dataBytes w.options es' := by
  obtain ⟨c, hc, hholds⟩ := h.raw
  obtain ⟨c', hc', hholds'⟩ := h'.raw
  exact Writer.Produced.unique ⟨c, hc, hholds.onTape⟩ ⟨c', hc', hholds'.onTape⟩

/-- A file is its data section and its summary section, with 50 bytes of the end of the data, the
footer and the magic. -/
theorem length_fileBytes (o : WriteOptions) (es : List Entry) (groups : List Group) :
    (fileBytes o es groups).length = (dataBytes o es).length +
      (content (summaryRecords o (dataBytes o es ++ (dataEndOf o es).frame).length groups)).length +
        50 := by
  have hend : (dataEndOf o es).frame.length = 13 := rfl
  have hfooter : ∀ footer : Footer, (Record.footer footer).frame.length = 29 := fun _ => rfl
  have hmagic : MAGIC.length = 8 := rfl
  rw [fileBytes, List.length_append, List.length_append, List.length_append, List.length_append,
    hend, hfooter, hmagic]
  omega

namespace Writer

/-- The statistics of a session with one attachment. -/
def oneAttachment : Statistics := ⟨0, 0, 0, 1, 0, 0, 0, 0, ∅⟩

/-- The summary of a session with one attachment. -/
def attachedSummary (i : AttachmentIndex) : Summary := ⟨some oneAttachment, ∅, ∅, [], [i], []⟩

/-- **A file with one empty attachment**, of the name that is given. -/
theorem named_attachment (name : String) :
    ∃ (w w₁ w' : Writer Empty Stream) (i : AttachmentIndex) (es : List Entry),
      Session (fun _ _ res => ∃ reply, res = .ok reply) fullOptions [] w ∧
      attach ⟨0, 0, name, "", []⟩ w = (.ok (), w₁) ∧
      finish .byId w₁ = (.ok (attachedSummary i), w') ∧ w.attachmentIndexes = [] ∧ i.name = name ∧
      w'.Produced (fileBytes fullOptions es (summaryGroups fullOptions .byId (attachedSummary i))) ∧
      (fileBytes fullOptions es (summaryGroups fullOptions .byId (attachedSummary i))).length ≤
        2 * (utf8 name).length + 400 := by
  have hnew : ∃ (w : Writer Empty Stream) (c : CountingCrcWriter Stream),
      Session (fun _ _ res => ∃ reply, res = .ok reply) fullOptions [] w ∧
      Shows w ⟨[.record (fileHeader fullOptions)], .raw⟩ ∧ w.writer = some (.raw c) ∧
      w.options = fullOptions ∧ w.attachmentIndexes = [] ∧ ∃ w' i, finish .byId
        (w.attached c (dataBytes fullOptions [.record (fileHeader fullOptions)])
          ⟨0, 0, name, "", []⟩) = (.ok (attachedSummary i), w') ∧ i.name = name ∧ i.mediaType = "" :=
    ⟨_, _, .start rfl, (faithful_new (K := fun _ => True) rfl trivial).shows_, rfl, rfl, rfl, _, _,
      rfl, rfl, rfl⟩
  obtain ⟨w, c, hsession, hshows, hc, ho, hnone, w', i, hfin, hindex⟩ := hnew
  have hempty : ([] : Bytes).length < 2 ^ 64 := by decide
  obtain ⟨hattach, hshows₁⟩ := attach_raw (a := ⟨0, 0, name, "", []⟩) hshows hc hempty
  rw [ho] at hattach hshows₁
  obtain ⟨w₂, es, schemas, channels, hfinish, hext, -, -, -, hfile⟩ := finish_writes hshows₁ hfin
  refine ⟨w, _, w', i, es, hsession, hattach, hfin, hnone, hindex.1, ?_, ?_⟩
  · rwa [show (w.attached c (dataBytes fullOptions _) _).options = fullOptions from ho] at hfile
  -- no chunk is open, so the data section is the header and the attachment
  have hdata : dataBytes fullOptions es = dataBytes fullOptions [.record (fileHeader fullOptions)] ++
      (attachmentRecord fullOptions ⟨0, 0, name, ""⟩ []).frame := by
    rw [finishChunk_raw hshows₁] at hfinish
    cases hfinish
    have hsame := dataBytes_of_shows hext.shows_ hshows₁
    rw [show (w.attached c (dataBytes fullOptions _) _).options = fullOptions from ho,
      dataBytes_append] at hsame
    rw [hsame, Entry.bytes_record]
    rfl
  have hgroups := groupRecords_summaryGroups .byId summaryFull_fullOptions
    (show (attachedSummary i).stats = some oneAttachment from rfl)
  rw [length_fileBytes]
  generalize summaryGroups fullOptions .byId (attachedSummary i) = groups at hgroups ⊢
  have hsection : ∀ pos, (content (summaryRecords fullOptions pos groups)).length ≤
      (utf8 name).length + 150 := by
    intro pos
    have hrecords : summaryRecords fullOptions pos groups =
        [.statistics oneAttachment, .attachmentIndex i] := by
      rw [summaryRecords, hgroups]
      rfl
    have hstats : oneAttachment.bytes.length = 46 := by decide
    have hempty : (utf8 "").length = 0 := rfl
    rw [hrecords]
    simp only [content, List.flatMap_cons, List.flatMap_nil, List.length_append, Record.frame,
      length_frame, Record.body, hstats, AttachmentIndex.bytes, length_u64, length_writeString,
      List.length_nil, hindex, hempty]
    omega
  have hfront : (dataBytes fullOptions es).length ≤ (utf8 name).length + 150 := by
    have hheader : (dataBytes fullOptions [.record (fileHeader fullOptions)]).length = 25 := by decide
    have hempty : (utf8 "").length = 0 := rfl
    rw [hdata, List.length_append, hheader]
    simp only [Record.frame, length_frame, attachmentRecord, Record.body, AttachmentHeader.bytes,
      List.length_append, length_writeString, length_u64, length_u32, hempty, length_le,
      List.length_nil]
    omega
  have hsec := hsection (dataBytes fullOptions es ++ (dataEndOf fullOptions es).frame).length
  omega

end Writer

/-- A name of `n` bytes. -/
def longName (n : Nat) : String := String.ofList (List.replicate n 'a')

theorem length_longName (n : Nat) : (utf8 (longName n)).length = n := by
  have hsize : (longName n).utf8ByteSize = n := by
    induction n with
    | zero => rfl
    | succ n ih =>
      have hsize : 'a'.utf8Size = 1 := rfl
      rw [longName, List.replicate_succ, String.ofList_cons, String.utf8ByteSize_append,
        String.utf8ByteSize_singleton, hsize, show (String.ofList (List.replicate n 'a')).utf8ByteSize = n
          from ih, Nat.add_comm]
  simpa [utf8] using hsize

/-- **A name that is too long is not read back.** -/
theorem summary_differs :
    ¬ ∀ (σ : Type) [Encoders σ] (δ : Type) (D : Decompressor δ) (o : WriteOptions)
        (calls : List (Op × Res McapError Reply)) (w w' : Writer σ Stream) (order : HashOrder)
        (summary : Summary),
      Writer.Session (fun _ _ res => ∃ reply, res = .ok reply) o calls w → o.SummaryFull →
      (definitionsOf calls).schemas 0 = none → Writer.finish order w = (.ok summary, w') →
      ∃ bytes, w'.Produced bytes ∧
        (bytes.length ≤ ISIZE_MAX → Summary.Reads D bytes (.ok (some summary))) := by
  intro h
  obtain ⟨w, w₁, w', i, es, hsession, hattach, hfin, -, hname, hfile, hlen⟩ :=
    Writer.named_attachment (longName (2 ^ 32))
  have hcalled := hsession.call ⟨.done, rfl⟩ (Writer.attach_run hattach) (returned_of_ok rfl)
  obtain ⟨bytes, hproduced, hreads⟩ :=
    h Empty Stored storedLz4 fullOptions _ w₁ w' .byId _ hcalled summaryFull_fullOptions rfl hfin
  obtain rfl := hproduced.unique hfile
  rw [length_longName] at hlen
  have hmem := hlen.trans (show 2 * 2 ^ 32 + 400 ≤ ISIZE_MAX by decide)
  have hne : groupRecords (summaryGroups fullOptions .byId (Writer.attachedSummary i)) ≠ [] := by
    rw [groupRecords_summaryGroups .byId summaryFull_fullOptions
      (show (Writer.attachedSummary i).stats = some Writer.oneAttachment from rfl)]
    simp
  -- what is read has names that fit
  have hactual := (reads_file (D := storedLz4) (plain_summaryGroups .byId _) hne hmem).unique
    (hreads hmem)
  have hempty : Summary.empty.NamesFit := fun _ hi => by cases hi
  have hfits := hempty.result hactual i (List.mem_singleton_self i)
  rw [hname, StringFits, length_longName] at hfits
  exact absurd hfits (Nat.lt_irrefl _)

end Mcap

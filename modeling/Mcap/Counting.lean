import Mcap.Backing
import Mcap.ChunkGeometry

/-! # What the statistics count

A writer counts as it goes: messages by channel before they are written, schemas and channels
by the ids that are registered, attachments, metadata and chunks once they are written.
`Agrees` says that the statistics are those of a scan of the data section.  The counters are
integers of 16 to 64 bits, so `InRange` has to hold too.

Registering and counting come before the write that can be refused, so `statistics_agree` is
about sessions in which no call gets that far during an attachment; `message_not_written` is
another session, and its statistics count a message that is not in the file.
-/
namespace Mcap

/-! ## Scans -/

/-- The number of messages of a channel among the records. -/
def messageCount (id : UInt16) (records : List Record) : Nat :=
  (messagesOf records).countP (·.1.channelId = id)

/-- The ids of the schemas among the records. -/
def schemaIds (records : List Record) : List UInt16 :=
  records.filterMap fun
    | .schema header _ => some header.id
    | _ => none

/-- The ids of the channels among the records. -/
def channelIds (records : List Record) : List UInt16 :=
  records.filterMap fun
    | .channel channel => some channel.id
    | _ => none

/-- The number of records with an opcode. -/
def recordCount (opcode : UInt8) (records : List Record) : Nat :=
  records.countP (·.opcode = opcode)

namespace Ledger

theorem bounds_after (records : List Record) : (empty.after records).bounds = timeBounds records := by
  induction records using List.reverseRecOn with
  | nil => rfl
  | append_singleton records r ih =>
    rw [after_append, timeBounds_append, ← ih]
    cases r <;> rfl

/-- **The counter of a channel** counts its messages, and is there if it has any. -/
theorem counts_after (id : UInt16) (records : List Record) : (empty.after records).counts[id]? =
    if messageCount id records = 0 then none else some (.ofNat (messageCount id records)) := by
  induction records using List.reverseRecOn with
  | nil => exact Std.ExtTreeMap.getElem?_empty
  | append_singleton records r ih =>
    have hcount : messageCount id (records ++ [r]) =
        messageCount id records + messageCount id [r] := by
      rw [messageCount, messagesOf_append, List.countP_append]
      rfl
    rw [after_append, hcount]
    cases r with
    | message header data =>
      have hstep : ((empty.after records).after [.message header data]).counts =
          (empty.after records).counts.insert header.channelId
            ((empty.after records).counts.getD header.channelId 0 + 1) := rfl
      rw [hstep]
      by_cases hid : header.channelId = id
      · have hone : messageCount id [.message header data] = 1 := by
          simp [messageCount, messagesOf, hid]
        rw [← hid] at ih ⊢
        rw [BTreeMap.getElem?_insert_self, Std.ExtTreeMap.getD_eq_getD_getElem?, ih, hid, hone,
          if_neg (Nat.succ_ne_zero _), UInt64.ofNat_add]
        split
        · rename_i hzero
          rw [hzero]
          rfl
        · rfl
      · have hnone : messageCount id [.message header data] = 0 := by
          simp [messageCount, messagesOf, hid]
        rw [BTreeMap.getElem?_insert_ne _ hid, ih, hnone, Nat.add_zero]
    | _ => exact ih

/-- **The sum of the counters** counts the messages. -/
theorem sum_counts_after (records : List Record) :
    ((empty.after records).counts.toList.map Prod.snd).sum = .ofNat (messagesOf records).length := by
  induction records using List.reverseRecOn with
  | nil =>
    have hnil : (empty.after []).counts.toList = [] := by
      refine List.eq_nil_iff_forall_not_mem.mpr ?_
      rintro ⟨id, n⟩ hmem
      have hid := BTreeMap.mem_toList.mp hmem
      rw [counts_after] at hid
      cases hid
    rw [hnil]
    rfl
  | append_singleton records r ih =>
    rw [after_append, messagesOf_append, List.length_append]
    cases r with
    | message header data =>
      have hstep : ((empty.after records).after [.message header data]).counts =
          (empty.after records).counts.insert header.channelId
            ((empty.after records).counts.getD header.channelId 0 + 1) := rfl
      have hsplit := BTreeMap.sum_values (empty.after records).counts header.channelId
      rw [hstep, BTreeMap.sum_values_insert, UInt64.ofNat_add, ← ih, hsplit]
      exact add_right_comm _ 1 _
    | _ =>
      show _ = UInt64.ofNat ((messagesOf records).length + 0)
      rw [Nat.add_zero, ← ih]
      rfl

theorem isSome_schemas_after (id : UInt16) (records : List Record) :
    ((empty.after records).schemas id).isSome = true ↔ id ∈ schemaIds records := by
  induction records using List.reverseRecOn with
  | nil => simp [empty, after, schemaIds]
  | append_singleton records r ih =>
    rw [after_append, schemaIds, List.filterMap_append, List.mem_append, ← schemaIds, ← ih]
    cases r with
    | schema header data =>
      have hstep : ((empty.after records).after [.schema header data]).schemas =
          Function.update (empty.after records).schemas header.id
            (some { name := header.name, encoding := header.encoding, data }) := rfl
      rw [hstep]
      by_cases hid : id = header.id
      · simp [hid]
      · simp [hid]
    | _ => simp [after, step]

theorem isSome_channels_after (id : UInt16) (records : List Record) :
    ((empty.after records).channels id).isSome = true ↔ id ∈ channelIds records := by
  induction records using List.reverseRecOn with
  | nil => simp [empty, after, channelIds]
  | append_singleton records r ih =>
    rw [after_append, channelIds, List.filterMap_append, List.mem_append, ← channelIds, ← ih]
    cases r with
    | channel channel =>
      have hstep : ((empty.after records).after [.channel channel]).channels =
          Function.update (empty.after records).channels channel.id
            (some { topic := channel.topic, schemaId := channel.schemaId,
                    messageEncoding := channel.messageEncoding, metadata := channel.metadata }) :=
        rfl
      rw [hstep]
      by_cases hid : id = channel.id
      · simp [hid]
      · simp [hid]
    | _ => simp [after, step]

end Ledger

/-! ## Ids -/

/-- The ids of a list, without repetition, are as many as the entries of a map whose keys
they are. -/
theorem length_dedup {V : Type} {m : BTreeMap UInt16 V} {ids : List UInt16}
    (h : ∀ id, m.contains id = true ↔ id ∈ ids) : ids.dedup.length = m.size := by
  have hkeys : m.keys.Perm ids.dedup := by
    refine (List.perm_ext_iff_of_nodup Std.ExtTreeMap.nodup_keys ids.nodup_dedup).mpr fun id => ?_
    rw [List.mem_dedup, ← h, Std.ExtTreeMap.mem_keys]
    rfl
  rw [← hkeys.length_eq, Std.ExtTreeMap.length_keys]

theorem length_dedup_le (ids : List UInt16) : ids.dedup.length ≤ 2 ^ 16 := by
  have hinj : (ids.dedup.map UInt16.toNat).Nodup :=
    ids.nodup_dedup.map fun a b h => UInt16.toNat_inj.mp h
  have hsub : ids.dedup.map UInt16.toNat ⊆ List.range (2 ^ 16) := by
    intro n hn
    obtain ⟨id, -, rfl⟩ := List.mem_map.mp hn
    exact List.mem_range.mpr id.toNat_lt
  have hle := (List.subperm_of_subset hinj hsub).length_le
  rwa [List.length_map, List.length_range] at hle

section
variable {σ : Type} {w : Writer σ Stream} {records : List Record}

theorem contains_schemaIds (hs : w.Sound) (h : w.ledger = Ledger.empty.after records) (id : UInt16) :
    w.allSchemaIds.contains id = true ↔ id ∈ schemaIds records := by
  rw [← Ledger.isSome_schemas_after, ← h]
  constructor
  · exact hs.schemas.isSome_contentOf
  · intro hsome
    by_contra hnot
    have hnone := (BTreeMap.contains_eq_false_iff _ _).mp (Bool.eq_false_iff.mpr hnot)
    have hempty : w.ledger.schemas id = none := contentOf_eq_none hnone
    rw [hempty] at hsome
    cases hsome

theorem contains_channelIds (hs : w.Sound) (h : w.ledger = Ledger.empty.after records) (id : UInt16) :
    w.allChannelIds.contains id = true ↔ id ∈ channelIds records := by
  rw [← Ledger.isSome_channels_after, ← h]
  constructor
  · exact hs.channels.isSome_contentOf
  · intro hsome
    by_contra hnot
    have hnone := (BTreeMap.contains_eq_false_iff _ _).mp (Bool.eq_false_iff.mpr hnot)
    have hempty : w.ledger.channels id = none := contentOf_eq_none hnone
    rw [hempty] at hsome
    cases hsome

end

/-! ## Indexes -/

namespace Ledger

theorem allows_of_mem {l : Ledger} {rs : List Record} {r : Record} (h : l.AllowsAll rs)
    (hr : r ∈ rs) : ∃ l' : Ledger, l'.Allows r := by
  obtain ⟨pre, post, rfl⟩ := List.append_of_mem hr
  exact ⟨_, allows_of_allowsAll h⟩

theorem allows_unknown {l : Ledger} {opcode : UInt8} {data : Bytes}
    (h : l.Allows (.unknown opcode data)) {code : UInt8} (hcode : code < 0x80) : opcode ≠ code := by
  have hop : (0x80 : UInt8) ≤ opcode := h
  rintro rfl
  exact absurd hop (UInt8.not_le.mpr hcode)

end Ledger

section
variable {o : WriteOptions} {es : List Entry}

theorem recordCount_chunk (code : UInt8) (records : List Record) (out : Bytes)
    (hcode : code ≠ op.MESSAGE_INDEX) : recordCount code ((Entry.chunk records out).records o) =
      if op.CHUNK = code then 1 else 0 := by
  have hindexes : recordCount code (indexRecords o records) = 0 := by
    refine List.countP_eq_zero.mpr fun r hr => ?_
    obtain ⟨e, -, rfl⟩ := List.mem_map.mp hr
    exact fun h => hcode (of_decide_eq_true h).symm
  have hcons : recordCount code ((Entry.chunk records out).records o) =
      recordCount code (indexRecords o records) + if op.CHUNK = code then 1 else 0 := by
    rw [recordCount, Entry.records, List.countP_cons]
    congr 1
    exact if_congr (decide_eq_true_iff) rfl rfl
  rw [hcons, hindexes, Nat.zero_add]

/-- **An index for each record of a kind.** -/
theorem length_indexes {α : Type} (f : Nat × Entry → Option α) (code : UInt8)
    (h : ∀ pos, ∀ e ∈ es, (f (pos, e)).toList.length = recordCount code (e.records o)) (pos : Nat) :
    ((withOffsets o pos es).filterMap f).length = recordCount code (es.flatMap (Entry.records o)) := by
  induction es generalizing pos with
  | nil => rfl
  | cons e es ih =>
    have htail := ih (fun pos e' he' => h pos e' (List.mem_cons_of_mem _ he'))
      (pos + (e.bytes o).length)
    have hhead := h pos e List.mem_cons_self
    have hsplit : recordCount code ((e :: es).flatMap (Entry.records o)) =
        recordCount code (e.records o) + recordCount code (es.flatMap (Entry.records o)) := by
      rw [recordCount, List.flatMap_cons, List.countP_append]
      rfl
    rw [hsplit, ← htail, ← hhead, withOffsets, List.filterMap_cons]
    cases f (pos, e) with
    | none => exact (Nat.zero_add _).symm
    | some a => exact (List.length_cons).trans (Nat.add_comm _ _)

theorem length_chunkIndexesOf (hplain : ∀ r, .record r ∈ es → r.opcode ≠ op.CHUNK) :
    (chunkIndexesOf o es).length = recordCount op.CHUNK (es.flatMap (Entry.records o)) := by
  refine length_indexes (chunkIndexOf o) op.CHUNK (fun pos e he => ?_) MAGIC.length
  cases e with
  | record r =>
    have hr := hplain r he
    simp [chunkIndexOf, recordCount, Entry.records, hr]
  | chunk records out =>
    rw [recordCount_chunk op.CHUNK records out (by decide), if_pos rfl]
    rfl

theorem length_attachmentIndexesOf (hall : ∀ r, .record r ∈ es → ∃ l : Ledger, l.Allows r) :
    (attachmentIndexesOf o es).length = recordCount op.ATTACHMENT (es.flatMap (Entry.records o)) := by
  refine length_indexes (attachmentIndexOf o) op.ATTACHMENT (fun pos e he => ?_) MAGIC.length
  cases e with
  | record r =>
    obtain ⟨l, hl⟩ := hall r he
    cases r with
    | unknown opcode data =>
      have hne := Ledger.allows_unknown hl (show op.ATTACHMENT < 0x80 by decide)
      simp [attachmentIndexOf, recordCount, Entry.records, Record.opcode, hne]
    | _ => rfl
  | chunk records out =>
    rw [recordCount_chunk op.ATTACHMENT records out (by decide), if_neg (by decide)]
    rfl

theorem length_metadataIndexesOf (hall : ∀ r, .record r ∈ es → ∃ l : Ledger, l.Allows r) :
    (metadataIndexesOf o es).length = recordCount op.METADATA (es.flatMap (Entry.records o)) := by
  refine length_indexes metadataIndexOf op.METADATA (fun pos e he => ?_) MAGIC.length
  cases e with
  | record r =>
    obtain ⟨l, hl⟩ := hall r he
    cases r with
    | unknown opcode data =>
      have hne := Ledger.allows_unknown hl (show op.METADATA < 0x80 by decide)
      simp [metadataIndexOf, recordCount, Entry.records, Record.opcode, hne]
    | _ => rfl
  | chunk records out =>
    rw [recordCount_chunk op.METADATA records out (by decide), if_neg (by decide)]
    rfl

end

/-! ## Agreement -/

/-- **The statistics are those of a scan** of the data section. -/
structure Agrees (o : WriteOptions) (es : List Entry) (s : Statistics) : Prop where
  messages : s.messageCount.toNat = (messagesOf (es.flatMap Entry.flat)).length
  channelMessages : ∀ id, (s.channelMessageCounts.getD id 0).toNat =
    messageCount id (es.flatMap Entry.flat)
  channelKeys : ∀ id, s.channelMessageCounts.contains id = true ↔
    messageCount id (es.flatMap Entry.flat) ≠ 0
  noTimes : logTimes (es.flatMap Entry.flat) = [] → s.messageStartTime = 0 ∧ s.messageEndTime = 0
  times : logTimes (es.flatMap Entry.flat) ≠ [] →
    Bounds (logTimes (es.flatMap Entry.flat)) s.messageStartTime s.messageEndTime
  attachments : s.attachmentCount.toNat = recordCount op.ATTACHMENT (es.flatMap (Entry.records o))
  metadata : s.metadataCount.toNat = recordCount op.METADATA (es.flatMap (Entry.records o))
  chunks : s.chunkCount.toNat = recordCount op.CHUNK (es.flatMap (Entry.records o))
  schemas : s.schemaCount.toNat = (schemaIds (es.flatMap Entry.flat)).dedup.length
  channels : s.channelCount.toNat = (channelIds (es.flatMap Entry.flat)).dedup.length

/-- What is counted is in the range of the counters. -/
structure InRange (o : WriteOptions) (es : List Entry) : Prop where
  messages : (messagesOf (es.flatMap Entry.flat)).length < 2 ^ 64
  attachments : recordCount op.ATTACHMENT (es.flatMap (Entry.records o)) < 2 ^ 32
  metadata : recordCount op.METADATA (es.flatMap (Entry.records o)) < 2 ^ 32
  chunks : recordCount op.CHUNK (es.flatMap (Entry.records o)) < 2 ^ 32
  schemas : (schemaIds (es.flatMap Entry.flat)).dedup.length < 2 ^ 16

section
variable {σ : Type} {w : Writer σ Stream} {o : WriteOptions} {es : List Entry}

theorem Agrees.inRange {s : Statistics} (h : Agrees o es s) : InRange o es where
  messages := by
    rw [← h.messages]
    exact s.messageCount.toNat_lt
  attachments := by
    rw [← h.attachments]
    exact s.attachmentCount.toNat_lt
  metadata := by
    rw [← h.metadata]
    exact s.metadataCount.toNat_lt
  chunks := by
    rw [← h.chunks]
    exact s.chunkCount.toNat_lt
  schemas := by
    rw [← h.schemas]
    exact s.schemaCount.toNat_lt

theorem toNat_ofNat32 {n : Nat} (h : n < 2 ^ 32) : (UInt32.ofNat n).toNat = n := by
  rw [UInt32.toNat_ofNat']
  exact Nat.mod_eq_of_lt h

/-- **The counters of a writer** agree with a scan if they do not overflow. -/
theorem agrees_of_inRange (hw : w.options = o) (hs : w.Sound) (hb : Booked w es)
    (hl : w.ledger = Ledger.empty.after (es.flatMap Entry.flat))
    (hplain : ∀ r, .record r ∈ es → r.opcode ≠ op.CHUNK)
    (hall : ∀ r, .record r ∈ es → ∃ l : Ledger, l.Allows r) (h : InRange o es) :
    Agrees o es w.statistics := by
  subst hw
  have hcounts : w.channelMessageCounts = (Ledger.empty.after (es.flatMap Entry.flat)).counts := by
    rw [← hl]
    rfl
  have hbounds : w.messageBounds = timeBounds (es.flatMap Entry.flat) := by
    rw [← Ledger.bounds_after, ← hl]
    rfl
  have hle : ∀ id, messageCount id (es.flatMap Entry.flat) ≤
      (messagesOf (es.flatMap Entry.flat)).length := fun _ => List.countP_le_length
  constructor
  case messages =>
    show ((w.channelMessageCounts.toList.map Prod.snd).sum).toNat = _
    rw [hcounts, Ledger.sum_counts_after, toNat_ofNat_lt h.messages]
  case channelMessages =>
    intro id
    have hid := hle id
    have hmax := h.messages
    show (w.channelMessageCounts.getD id 0).toNat = _
    rw [hcounts, Std.ExtTreeMap.getD_eq_getD_getElem?, Ledger.counts_after]
    split
    · rename_i hzero
      rw [hzero]
      rfl
    · exact toNat_ofNat_lt (by omega)
  case channelKeys =>
    intro id
    show w.channelMessageCounts.contains id = true ↔ _
    rw [hcounts, BTreeMap.contains_iff, Ledger.counts_after]
    split
    · rename_i hzero
      simp [hzero]
    · rename_i hne
      simp [hne]
  case noTimes =>
    intro hnil
    show (w.messageBounds.getD (0, 0)).1 = 0 ∧ (w.messageBounds.getD (0, 0)).2 = 0
    rw [hbounds]
    rcases timeBounds_spec (es.flatMap Entry.flat) with ⟨hnone, -⟩ | ⟨lo, hi, -, hsome⟩
    · rw [hnone]
      exact ⟨rfl, rfl⟩
    · rw [hnil] at hsome
      cases hsome.1.1
  case times =>
    intro hne
    show Bounds _ (w.messageBounds.getD (0, 0)).1 (w.messageBounds.getD (0, 0)).2
    rw [hbounds]
    rcases timeBounds_spec (es.flatMap Entry.flat) with ⟨-, hnil⟩ | ⟨lo, hi, hsome, hspec⟩
    · exact absurd hnil hne
    · rw [hsome]
      exact hspec
  case attachments =>
    show w.attachmentCount.toNat = _
    rw [hb.attachmentCount, length_attachmentIndexesOf hall, toNat_ofNat32 h.attachments]
  case metadata =>
    show w.metadataCount.toNat = _
    rw [hb.metadataCount, length_metadataIndexesOf hall, toNat_ofNat32 h.metadata]
  case chunks =>
    show (UInt32.ofNat w.chunkIndexes.length).toNat = _
    rw [hb.chunkIndexes, length_chunkIndexesOf hplain, toNat_ofNat32 h.chunks]
  case schemas =>
    show (UInt16.ofNat w.allSchemaIds.size).toNat = _
    rw [← length_dedup (contains_schemaIds hs hl), UInt16.toNat_ofNat', Nat.mod_eq_of_lt h.schemas]
  case channels =>
    have hsize := length_dedup_le (channelIds (es.flatMap Entry.flat))
    show (UInt32.ofNat w.allChannelIds.size).toNat = _
    rw [← length_dedup (contains_channelIds hs hl), toNat_ofNat32 (by omega)]

end

/-! ## Sessions -/

section
variable {σ : Type} [Encoders σ] {w w' : Writer σ Stream} {o : WriteOptions} {order : HashOrder}
  {summary : Summary} {calls : List (Op × Res McapError Reply)}

/-- **The statistics agree with the file** if no call gets past its checks during an
attachment, and as long as the counters do not overflow.  They are in the summary, and in the
file if it is to have statistics. -/
theorem statistics_agree
    (hsession : Writer.Session (fun w op _ => op.Touches w → w.Free) o calls w)
    (hfin : Writer.finish order w = (.ok summary, w')) :
    ∃ es s, w'.Produced (fileBytes o es (summaryGroups o order summary)) ∧
      (∀ records out, .chunk records out ∈ es → Packs σ o records out) ∧
      (∀ r ∈ es.flatMap Entry.flat, ∃ l : Ledger, l.Allows r) ∧ summary.stats = some s ∧
      (o.emitStatistics = true →
        .statistics s ∈ groupRecords (summaryGroups o order summary)) ∧
      (Agrees o es s ↔ InRange o es) := by
  obtain ⟨j, hj⟩ := hsession.faithful (K := fun _ => True) trivial fun w op res hp =>
    ⟨hp, Op.keeps_true o op⟩
  obtain ⟨w₁, es, schemas, channels, -, hrec, hflat, hcore, -, -, rfl, hfile⟩ :=
    hj.recorded.finish hfin
  have hledger : w₁.ledger = Ledger.empty.after (es.flatMap Entry.flat) := by
    rw [Writer.ledger_of_core hcore, hj.ledger, hflat]
  have hall : ∀ r ∈ es.flatMap Entry.flat, ∃ l : Ledger, l.Allows r := by
    intro r hr
    rw [hflat] at hr
    exact Ledger.allows_of_mem hj.allowed hr
  have htop : ∀ r, .record r ∈ es → ∃ l : Ledger, l.Allows r := fun r hr =>
    hall r (List.mem_flatMap.mpr ⟨_, hr, List.mem_singleton_self r⟩)
  have hplain : ∀ r, .record r ∈ es → r.opcode ≠ op.CHUNK := by
    intro r hr
    obtain ⟨l, hl⟩ := htop r hr
    exact hl.plain.1
  have hpacked := hrec.shows_.packed
  rw [hrec.options] at hpacked
  refine ⟨es, w₁.statistics, hfile, hpacked, hall, rfl, fun hemit => ?_, Agrees.inRange, ?_⟩
  · simp [summaryGroups, Writer.summaryWith, statisticsGroup, groupIf,
      groupRecords, hemit]
  · exact agrees_of_inRange hrec.options hrec.sound hrec.shows_.booked hledger hplain htop

end

/-- Statistics, and nothing else in the summary section. -/
def statisticsOptions : WriteOptions := { plainOptions with emitStatistics := true }

/-- A message on a channel without a schema. -/
def bareMessage : Message where
  channel := { id := 1, topic := "t", schema := none, messageEncoding := "", metadata := ∅ }
  sequence := 0
  logTime := 5
  publishTime := 5
  data := []

/-- The number of messages that a summary counts. -/
def countedMessages : Res McapError Summary → Option UInt64
  | .ok summary => summary.stats.map Statistics.messageCount
  | _ => none

/-- The file of one message. -/
theorem statistics_agree_on_message : ∃ (calls : List (Op × Res McapError Reply))
    (w w' : Writer Empty Stream) (summary : Summary) (es : List Entry) (s : Statistics),
    Writer.Session (fun w op _ => op.Touches w → w.Free) statisticsOptions calls w ∧
      Writer.finish .byId w = (.ok summary, w') ∧ summary.stats = some s ∧ s.messageCount = 1 ∧
      w'.Produced (fileBytes statisticsOptions es
        (summaryGroups statisticsOptions .byId summary)) ∧
      (Agrees statisticsOptions es s ↔ InRange statisticsOptions es) := by
  have hstart : Writer.Session (fun w op _ => op.Touches w → w.Free) statisticsOptions []
    (_ : Writer Empty Stream) := .start rfl
  have hrun : ∃ calls w, Writer.Session (fun w op _ => op.Touches w → w.Free) statisticsOptions
      calls w ∧ countedMessages (Writer.finish .byId (w : Writer Empty Stream)).1 = some 1 :=
    ⟨_, _, hstart.call (fun _ a h => by cases h)
      (show Op.run (.write bareMessage) _ = _ from rfl)
      (returned_of_ok (a := .done) (by decide +kernel)), by decide +kernel⟩
  obtain ⟨calls, w, hsession, hcount⟩ := hrun
  rcases hfin : Writer.finish .byId w with ⟨summary | _ | _, w'⟩
  · rw [hfin] at hcount
    obtain ⟨es, s, hfile, -, -, hstats, -, hagree⟩ := statistics_agree hsession hfin
    have hone : summary.stats.map Statistics.messageCount = some 1 := hcount
    rw [hstats] at hone
    exact ⟨calls, w, w', summary, es, s, hsession, hfin, hstats, Option.some_inj.mp hone, hfile,
      hagree⟩
  all_goals
    rw [hfin] at hcount
    cases hcount

/-- A message, and the same once more during an attachment. -/
def refusedMessage : List Op :=
  [.write bareMessage, .startAttachment 1 ⟨0, 0, "", ""⟩, .write bareMessage,
    .putAttachmentBytes [7], .finishAttachment]

/-- What is written by `refusedMessage`. -/
def refusedMessageFile : List Entry :=
  [.record (fileHeader statisticsOptions),
    .record (.channel { id := 1, schemaId := 0, topic := "t", messageEncoding := "", metadata := ∅ }),
    .record (.message { channelId := 1, sequence := 0, logTime := 5, publishTime := 5 } []),
    .record (.attachment ⟨0, 0, "", ""⟩ [7] 0)]

/-- The bytes that a writer has produced. -/
def Writer.bytes (w : Writer Empty Stream) : Option Bytes :=
  match w.writer with
  | some (.raw c) => some c.inner.bytes
  | _ => none

theorem Writer.Produced.bytes_eq {w : Writer Empty Stream} {bytes : Bytes} (h : w.Produced bytes) :
    w.bytes = some bytes := by
  obtain ⟨c, hc, hbytes⟩ := h
  rw [Writer.bytes, hc]
  exact congrArg (fun s => some s.bytes) hbytes

/-- The bytes that a `finish` that succeeds has produced, and those of the entries. -/
def producedAs (o : WriteOptions) (es : List Entry) : Res McapError Summary × Writer Empty Stream →
    Bool
  | (.ok summary, w) => w.bytes = some (fileBytes o es (summaryGroups o .byId summary))
  | _ => false

/-- **A message that is counted and not written**: it is sent during an attachment. -/
theorem message_not_written : ∃ (calls : List (Op × Res McapError Reply))
    (w w' : Writer Empty Stream) (summary : Summary) (s : Statistics),
    Writer.Session (fun _ _ _ => True) statisticsOptions calls w ∧
      calls.map Prod.fst = refusedMessage ∧
      Writer.finish .byId w = (.ok summary, w') ∧
      w'.bytes = some (fileBytes statisticsOptions refusedMessageFile
        (summaryGroups statisticsOptions .byId summary)) ∧
      summary.stats = some s ∧ InRange statisticsOptions refusedMessageFile ∧
      ¬ Agrees statisticsOptions refusedMessageFile s := by
  have hstart : Writer.Session (fun _ _ _ => True) statisticsOptions [] (_ : Writer Empty Stream) :=
    .start rfl
  have hrun : ∃ calls w, Writer.Session (fun _ _ _ => True) statisticsOptions calls w ∧
      calls.map Prod.fst = refusedMessage ∧
      countedMessages (Writer.finish .byId (w : Writer Empty Stream)).1 = some 2 ∧
      producedAs statisticsOptions refusedMessageFile
        (Writer.finish .byId (w : Writer Empty Stream)) = true :=
    ⟨_, _, hstart.runAll refusedMessage (by decide +kernel), List.map_fst_zip (by decide +kernel),
      by decide +kernel, by decide +kernel⟩
  obtain ⟨calls, w, hsession, hops, hcount, hbytes⟩ := hrun
  rcases hfin : Writer.finish .byId w with ⟨summary | _ | _, w'⟩
  · rw [hfin] at hcount hbytes
    have htwo : summary.stats.map Statistics.messageCount = some 2 := hcount
    obtain ⟨s, hstats, hs⟩ := Option.map_eq_some_iff.mp htwo
    refine ⟨calls, w, w', summary, s, hsession, hops, hfin, of_decide_eq_true hbytes, hstats,
      ⟨by decide, by decide, by decide, by decide, by decide⟩, fun h => ?_⟩
    have hone := h.messages
    rw [hs] at hone
    revert hone
    decide
  all_goals
    rw [hfin] at hcount
    cases hcount

end Mcap

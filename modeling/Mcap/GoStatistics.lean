import Mathlib.Data.List.Dedup
import Mcap.GoChunking
import Mcap.GoParse
import Mcap.GoTimes

/-! # The statistics of the Go writer

The end time is always right.  The start time is right as long as no message is at time 0 and
`Close` writes no chunk without messages: such a chunk has the start time 0 itself.  A message at
time 0 is forgotten with the next chunk, since a chunk takes a start of 0 for unset, and it is seen
again only if that chunk has one too.  So what counts is the last chunk with messages
(`StartKept`), which is the last one or the one before.

The counters wrap in their widths, so that they are right as long as what they count fits
(`InRange`).
-/
namespace Mcap
namespace Go

section
variable {κ : Type} {o : WriterOptions κ} {ids : List UInt16} {calls cs cs' : List Call}
  {es es' : List Entry} {c : Call} {flushed : Option Chunk} {w w' : Writer κ}

/-! ## The counters and the time range -/

/-- The call writes an attachment. -/
def Call.isAttachment : Call → Bool
  | .attachment _ => true
  | _ => false

/-- The call writes metadata. -/
def Call.isMetadata : Call → Bool
  | .metadata _ => true
  | _ => false

/-- A message at time 0 that was seen is seen still: there are no chunks, or it is in the open
chunk or in the last one that was written. -/
def Seen (o : WriterOptions κ) (p : Chunking) : Prop :=
  o.chunked = false ∨ 0 ∈ logTimes p.active ∨ 0 ∈ logTimes (p.closed.getLast?.getD [])

/-- The statistics of a writer count the calls, each counter in its width; the end time is right,
and the start time is that of `Starts`. -/
structure Tallied (o : WriterOptions κ) (calls : List Call) (es : List Entry) (w : Writer κ) :
    Prop where
  messages : w.statistics.messageCount = .ofNat (messages calls).length
  channelMessages : ∀ id : UInt16, w.statistics.channelMessageCounts.getD id 0 =
    .ofNat ((Go.messages calls).countP fun m => m.channelID = id)
  counted : ∀ (id : UInt16) (n : UInt64), w.statistics.channelMessageCounts[id]? = some n →
    id ∈ w.channelIDs
  schemas : w.statistics.schemaCount = .ofNat w.schemaIDs.length
  channels : w.statistics.channelCount = .ofNat w.channelIDs.length
  attachments : w.statistics.attachmentCount = .ofNat (calls.countP Call.isAttachment)
  metadata : w.statistics.metadataCount = .ofNat (calls.countP Call.isMetadata)
  chunks : w.statistics.chunkCount = .ofNat (es.countP Entry.isChunk)
  end_ : w.statistics.messageEndTime = greatestTime (logTimes calls)
  start : (Go.messages calls).length < 2 ^ 64 →
    Starts (logTimes calls) (Seen o (chunking o calls)) w.statistics.messageStartTime

theorem ofNat64_succ (n : Nat) : UInt64.ofNat n + 1 = .ofNat (n + 1) := by
  apply UInt64.toNat_inj.mp
  simp

theorem ofNat32_succ (n : Nat) : UInt32.ofNat n + 1 = .ofNat (n + 1) := by
  apply UInt32.toNat_inj.mp
  simp

theorem ofNat16_succ (n : Nat) : UInt16.ofNat n + 1 = .ofNat (n + 1) := by
  apply UInt16.toNat_inj.mp
  simp

theorem end_covered {ts chunk : List UInt64} {t e : UInt64} (hsub : ∀ x ∈ chunk, x ∈ ts ++ [t])
    (he : e = greatestTime chunk ∨ e = 0) :
    (if (if greatestTime ts < e then e else greatestTime ts) < t then t
      else if greatestTime ts < e then e else greatestTime ts) = greatestTime (ts ++ [t]) := by
  have hle : e ≤ greatestTime (ts ++ [t]) := by
    rcases he with rfl | rfl
    · by_cases hchunk : chunk = []
      · subst hchunk
        exact UInt64.zero_le
      · have hmem := (isGreatest_greatestTime hchunk).1
        exact (isGreatest_greatestTime (by simp)).2 (hsub _ hmem)
    · exact UInt64.zero_le
  rw [greatestTime_append] at hle ⊢
  apply UInt64.toNat_inj.mp
  by_cases h₁ : greatestTime ts < e
  · by_cases h₂ : greatestTime ts < t
    · rw [if_pos h₂] at hle
      simp only [if_pos h₁, if_pos h₂]
      by_cases h₃ : e < t
      · rw [if_pos h₃]
      · rw [if_neg h₃, UInt64.le_antisymm hle (UInt64.not_lt.mp h₃)]
    · rw [if_neg h₂] at hle
      exact absurd h₁ (UInt64.not_lt.mpr hle)
  · simp only [if_neg h₁]

variable [ResettableWriteCloser κ] [Packages κ]

theorem Laid.mem_logTimes (h : Laid o calls es cs) {t : UInt64} (ht : t ∈ logTimes cs) :
    t ∈ logTimes calls := by
  have hmessages := congrArg (List.map Message.logTime) h.messages
  have hmem : t ∈ logTimes (es.flatMap Entry.flat ++ cs) := by
    rw [logTimes_append]
    exact List.mem_append_right _ ht
  rw [logTimes, hmessages] at hmem
  exact hmem

theorem Laid.length_messages (h : Laid o calls es cs) :
    (Go.messages cs).length ≤ (Go.messages calls).length := by
  rw [← h.messages, messages_append, List.length_append]
  omega

theorem Tallied.quiet (h : Tallied o calls es w) (hmsg : c.message? = none)
    (hmessages : w'.statistics.messageCount = w.statistics.messageCount)
    (hcounts : w'.statistics.channelMessageCounts = w.statistics.channelMessageCounts)
    (hids : ∀ id ∈ w.channelIDs, id ∈ w'.channelIDs)
    (hschemas : w'.statistics.schemaCount = .ofNat w'.schemaIDs.length)
    (hchannels : w'.statistics.channelCount = .ofNat w'.channelIDs.length)
    (hattachments : w'.statistics.attachmentCount =
      .ofNat ((calls ++ [c]).countP Call.isAttachment))
    (hmetadata : w'.statistics.metadataCount = .ofNat ((calls ++ [c]).countP Call.isMetadata))
    (hchunks : w'.statistics.chunkCount = w.statistics.chunkCount)
    (hend : w'.statistics.messageEndTime = w.statistics.messageEndTime)
    (hstart : w'.statistics.messageStartTime = w.statistics.messageStartTime)
    (hadds : Adds o ids c es cs es' cs' none) : Tallied o (calls ++ [c]) es' w' := by
  have hnil := messages_singleton hmsg
  have hsame : Go.messages (calls ++ [c]) = Go.messages calls := by
    rw [messages_append, hnil, List.append_nil]
  have htimes : logTimes (calls ++ [c]) = logTimes calls := by rw [logTimes, hsame, logTimes]
  have hcount : es'.countP Entry.isChunk = es.countP Entry.isChunk := by
    cases hadds with
    | record hc => simp [List.countP_append, Entry.isChunk]
    | active hchunked hc hfull => rfl
  exact
    { messages := by rw [hmessages, hsame, h.messages]
      channelMessages := by
        intro id
        rw [hcounts, hsame]
        exact h.channelMessages id
      counted := by
        intro id n hn
        rw [hcounts] at hn
        exact hids id (h.counted id n hn)
      schemas := hschemas
      channels := hchannels
      attachments := hattachments
      metadata := hmetadata
      chunks := by rw [hchunks, hcount, h.chunks]
      end_ := by rw [hend, htimes, h.end_]
      start := by
        rw [hsame, htimes, hstart]
        intro hlt
        refine (h.start hlt).congr fun _ => ?_
        unfold Seen
        rw [chunking_append, Chunking.add]
        split
        · rw [hmsg]
          simp only [Option.isSome_none, Bool.false_eq_true, false_and, if_false]
          rw [logTimes_append]
          simp [logTimes, hnil]
        · exact Iff.rfl }

omit [ResettableWriteCloser κ] [Packages κ] in
theorem statistics_message (w : Writer κ) (flushed : Option Chunk) (m : Message) :
    (((w.countMessage m).covered flushed).timeMessage m).statistics =
      { w.statistics with
        messageCount := w.statistics.messageCount + 1
        channelMessageCounts := w.statistics.channelMessageCounts.insert m.channelID
          (w.statistics.channelMessageCounts.getD m.channelID 0 + 1)
        chunkCount := w.statistics.chunkCount + (if flushed.isSome then 1 else 0)
        messageEndTime :=
          let e := flushed.elim 0 Chunk.messageEndTime
          let end_ := if w.statistics.messageEndTime < e then e else w.statistics.messageEndTime
          if end_ < m.logTime then m.logTime else end_
        messageStartTime :=
          startAfter (decide (w.statistics.messageCount + 1 ≤ 1))
            (flushed.elim w.statistics.messageStartTime fun c =>
              startCovered w.statistics.messageStartTime c.messageStartTime) m.logTime } := by
  cases flushed with
  | none =>
    simp only [Writer.covered, Writer.timeMessage, Writer.countMessage, startAfter,
      decide_eq_true_eq, Option.elim_none, UInt64.not_lt_zero, if_false, Option.isSome_none,
      Bool.false_eq_true, UInt32.add_zero]
    congr
  | some c =>
    simp only [Writer.covered, Writer.timeMessage, Writer.countMessage, Writer.coverChunk,
      startAfter, startCovered, decide_eq_true_eq, Option.elim_some, Option.isSome_some, if_true]
    congr

theorem Laid.chunkOf_times (h : Laid o calls es cs) {m : Message}
    (hlt : (Go.messages calls).length + 1 < 2 ^ 64) (out : Bytes) :
    (chunkOf o (cs ++ [.message m]) out).messageStartTime =
        leastTime (logTimes (cs ++ [.message m])) ∧
      (chunkOf o (cs ++ [.message m]) out).messageEndTime =
        greatestTime (logTimes (cs ++ [.message m])) := by
  have hlen := h.length_messages
  have hcount : (Go.messages (cs ++ [.message m])).length = (Go.messages cs).length + 1 := by
    rw [messages_append, List.length_append]
    rfl
  have hany : UInt64.ofNat (Go.messages (cs ++ [.message m])).length ≠ 0 := by
    intro hzero
    have hnat := congrArg UInt64.toNat hzero
    rw [UInt64.toNat_ofNat', Nat.mod_eq_of_lt (by omega)] at hnat
    have hne : (Go.messages (cs ++ [.message m])).length ≠ 0 := by omega
    exact hne hnat
  simp only [chunkOf, if_pos hany, and_self]

theorem Tallied.message (h : Tallied o calls es w) (hl : Laid o calls es cs) {m : Message}
    (hknown : m.channelID ∈ w.channelIDs)
    (hbooks : w'.books = (((w.countMessage m).covered flushed).timeMessage m).books)
    (hadds : Adds o ids (.message m) es cs es' cs' flushed) :
    Tallied o (calls ++ [.message m]) es' w' := by
  have hstats : w'.statistics = _ := (congrArg Books.statistics hbooks).trans
    (statistics_message w flushed m)
  have hids : w'.channelIDs = w.channelIDs := by
    have he := congrArg Books.channelIDs hbooks
    cases flushed <;> exact he
  have hsids : w'.schemaIDs = w.schemaIDs := by
    have he := congrArg Books.schemaIDs hbooks
    cases flushed <;> exact he
  have hmessages : Go.messages (calls ++ [.message m]) = Go.messages calls ++ [m] :=
    messages_append ..
  have htimes : logTimes (calls ++ [.message m]) = logTimes calls ++ [m.logTime] :=
    logTimes_append ..
  have hchunk : logTimes (cs ++ [.message m]) = logTimes cs ++ [m.logTime] := logTimes_append ..
  have hsub : ∀ x ∈ logTimes (cs ++ [.message m]), x ∈ logTimes calls ++ [m.logTime] := by
    intro x hx
    rw [hchunk] at hx
    rcases List.mem_append.mp hx with hmem | hmem
    · exact List.mem_append_left _ (hl.mem_logTimes hmem)
    · exact List.mem_append_right _ hmem
  exact
    { messages := by
        rw [hstats, hmessages, List.length_append]
        show w.statistics.messageCount + 1 = _
        rw [h.messages, ofNat64_succ]
        rfl
      channelMessages := by
        intro id
        rw [hstats, hmessages, List.countP_append]
        show (w.statistics.channelMessageCounts.insert _ _).getD id 0 = _
        have hid := h.channelMessages id
        rw [Std.ExtTreeMap.getD_eq_getD_getElem?]
        by_cases he : m.channelID = id
        · subst he
          rw [BTreeMap.getElem?_insert_self, Option.getD_some, hid, ofNat64_succ]
          simp
        · rw [BTreeMap.getElem?_insert_ne _ he, ← Std.ExtTreeMap.getD_eq_getD_getElem?, hid]
          simp [he]
      counted := by
        intro id n hn
        rw [hids]
        rw [hstats] at hn
        have hn' : (w.statistics.channelMessageCounts.insert _ _)[id]? = some n := hn
        by_cases he : m.channelID = id
        · exact he ▸ hknown
        · rw [BTreeMap.getElem?_insert_ne _ he] at hn'
          exact h.counted id n hn'
      schemas := by
        rw [hstats, hsids]
        exact h.schemas
      channels := by
        rw [hstats, hids]
        exact h.channels
      attachments := by
        rw [hstats, List.countP_append]
        exact h.attachments
      metadata := by
        rw [hstats, List.countP_append]
        exact h.metadata
      chunks := by
        rw [hstats]
        show w.statistics.chunkCount + _ = _
        rw [h.chunks]
        cases hadds with
        | record hc => simp [List.countP_append, Entry.isChunk]
        | active hchunked hc hfull => simp
        | chunk hchunked hc hfull hout =>
          rw [List.countP_append]
          exact ofNat32_succ _
      end_ := by
        rw [hstats, htimes]
        show (if (if w.statistics.messageEndTime < _ then _ else _) < _ then _ else _) = _
        rw [h.end_]
        refine end_covered hsub ?_
        cases hadds with
        | record hc | active hchunked hc hfull => exact .inr rfl
        | chunk hchunked hc hfull hout =>
          show (if _ then _ else _) = _ ∨ (if _ then _ else _) = (0 : UInt64)
          split
          · exact .inl rfl
          · exact .inr rfl
      start := by
        intro hlt
        rw [hmessages, List.length_append] at hlt
        have hlt' : (Go.messages calls).length + 1 < 2 ^ 64 := hlt
        have hstart := h.start (by omega)
        -- the counter says whether the message is the first one
        have hfirst : decide (w.statistics.messageCount + 1 ≤ 1) = decide (logTimes calls = []) := by
          rw [decide_eq_decide, h.messages, ofNat64_succ, UInt64.le_iff_toNat_le,
            UInt64.toNat_ofNat', Nat.mod_eq_of_lt hlt', logTimes, List.map_eq_nil_iff,
            ← List.length_eq_zero_iff]
          show _ ≤ 1 ↔ _
          omega
        rw [hstats, htimes]
        show Starts _ _ (startAfter _ _ _)
        rw [hfirst]
        have hclosed := hl.closed
        have hactive := hl.active
        have hstep := (hl.step hadds).active
        have hstepc := (hl.step hadds).closed
        cases hadds with
        | record hc =>
          have hoff : o.chunked = false := by simpa [Call.inChunk] using hc
          refine hstart.message.congr fun _ => ?_
          simp [Seen, hoff]
        | active hchunked hc hfull =>
          refine hstart.message.congr fun _ => ?_
          unfold Seen
          rw [← hstep, ← hstepc, hclosed, ← hactive, hchunk, hchunked]
          simp [eq_comm]
          tauto
        | chunk hchunked hc hfull hout =>
          have hne : logTimes (cs ++ [.message m]) ≠ [] := by
            rw [hchunk]
            simp
          have hmem : m.logTime ∈ logTimes (cs ++ [.message m]) := by
            rw [hchunk]
            exact List.mem_append_right _ (List.mem_singleton_self _)
          show Starts _ _ (startAfter _ (startCovered _ (chunkOf o _ _).messageStartTime) _)
          rw [(hl.chunkOf_times hlt' _).1]
          refine (hstart.filled hsub hmem (isLeast_leastTime hne)).congr fun _ => ?_
          unfold Seen
          rw [← hstep, ← hstepc, List.filterMap_append, hchunked]
          simp [Entry.chunk?, logTimes] }

theorem Adds.flushed_eq_none (h : Adds o ids c es cs es' cs' flushed) (hc : c.message? = none) :
    flushed = none := by
  cases h with
  | chunk hchunked hmsg hfull hout =>
    subst hmsg
    cases hc
  | _ => rfl

/-- **One call** keeps the tables and the counters. -/
theorem Tallied.step (h : Tallied o calls es w) (hl : Laid o calls es cs) (ht : Tabled calls w)
    (hleaves : w.Leaves flushed c w'.books) (hadds : Adds o ids c es cs es' cs' flushed) :
    Tabled (calls ++ [c]) w' ∧ Tallied o (calls ++ [c]) es' w' := by
  cases c with
  | schema s =>
    obtain ⟨hid, hbooks⟩ := hleaves
    obtain rfl := hadds.flushed_eq_none rfl
    have hs := congrArg Books.statistics hbooks
    have hsids := congrArg Books.schemaIDs hbooks
    have hids : w'.channelIDs = w.channelIDs := (congrArg Books.channelIDs hbooks).trans (by
      simp only [Writer.books, Writer.addSchema]
      split <;> rfl)
    refine ⟨(ht.addSchema hid).of_books hsids (congrArg Books.channelIDs hbooks)
      (congrArg Books.schemas hbooks) (congrArg Books.channels hbooks), ?_⟩
    have hstats : ∀ {α : Type} (f : Statistics → α), (∀ s n, f { s with schemaCount := n } = f s) →
        f w'.statistics = f w.statistics := by
      intro α f hf
      refine (congrArg f hs).trans ?_
      simp only [Writer.books, Writer.addSchema]
      split
      · rfl
      · exact hf _ _
    refine h.quiet rfl (hstats _ fun _ _ => rfl) (hstats _ fun _ _ => rfl)
      (fun id hid => by rw [hids]; exact hid) ?_ ?_ ?_ ?_ (hstats _ fun _ _ => rfl)
      (hstats _ fun _ _ => rfl) (hstats _ fun _ _ => rfl) hadds
    · refine (congrArg Statistics.schemaCount hs).trans ?_
      rw [show w'.schemaIDs = (w.addSchema s).schemaIDs from hsids]
      simp only [Writer.books, Writer.addSchema]
      split
      · exact h.schemas
      · rw [h.schemas, ofNat16_succ, List.length_append]
        rfl
    · rw [hids]
      exact (hstats _ fun _ _ => rfl).trans h.channels
    · rw [List.countP_append]
      exact (hstats _ fun _ _ => rfl).trans h.attachments
    · rw [List.countP_append]
      exact (hstats _ fun _ _ => rfl).trans h.metadata
  | channel ch =>
    obtain ⟨hschema, hbooks⟩ := hleaves
    obtain rfl := hadds.flushed_eq_none rfl
    have hs := congrArg Books.statistics hbooks
    have hids := congrArg Books.channelIDs hbooks
    have hsids : w'.schemaIDs = w.schemaIDs := (congrArg Books.schemaIDs hbooks).trans (by
      simp only [Writer.books, Writer.addChannel]
      split <;> rfl)
    refine ⟨(ht.addChannel hschema).of_books (congrArg Books.schemaIDs hbooks) hids
      (congrArg Books.schemas hbooks) (congrArg Books.channels hbooks), ?_⟩
    have hstats : ∀ {α : Type} (f : Statistics → α), (∀ s n, f { s with channelCount := n } = f s) →
        f w'.statistics = f w.statistics := by
      intro α f hf
      refine (congrArg f hs).trans ?_
      simp only [Writer.books, Writer.addChannel]
      split
      · rfl
      · exact hf _ _
    have hmono : ∀ id ∈ w.channelIDs, id ∈ w'.channelIDs := by
      intro id hid
      rw [show w'.channelIDs = (w.addChannel ch).channelIDs from hids]
      simp only [Writer.addChannel]
      split
      · exact hid
      · exact List.mem_append_left _ hid
    refine h.quiet rfl (hstats _ fun _ _ => rfl) (hstats _ fun _ _ => rfl) hmono ?_ ?_ ?_ ?_
      (hstats _ fun _ _ => rfl) (hstats _ fun _ _ => rfl) (hstats _ fun _ _ => rfl) hadds
    · rw [hsids]
      exact (hstats _ fun _ _ => rfl).trans h.schemas
    · refine (congrArg Statistics.channelCount hs).trans ?_
      rw [show w'.channelIDs = (w.addChannel ch).channelIDs from hids]
      simp only [Writer.books, Writer.addChannel]
      split
      · exact h.channels
      · rw [h.channels, ofNat32_succ, List.length_append]
        rfl
    · rw [List.countP_append]
      exact (hstats _ fun _ _ => rfl).trans h.attachments
    · rw [List.countP_append]
      exact (hstats _ fun _ _ => rfl).trans h.metadata
  | message m =>
    obtain ⟨hknown, hbooks⟩ := hleaves
    refine ⟨?_, h.message hl ((ht.channels.contains _).mp hknown) hbooks hadds⟩
    have hother := ht.other (c := .message m) rfl rfl
    cases flushed <;>
      exact hother.of_books (congrArg Books.schemaIDs hbooks) (congrArg Books.channelIDs hbooks)
        (congrArg Books.schemas hbooks) (congrArg Books.channels hbooks)
  | attachment a =>
    obtain ⟨-, hbooks⟩ := hleaves
    have hs : w'.statistics = { w.statistics with
        attachmentCount := w.statistics.attachmentCount + 1 } := congrArg Books.statistics hbooks
    obtain rfl := hadds.flushed_eq_none rfl
    have hids : w'.channelIDs = w.channelIDs := congrArg Books.channelIDs hbooks
    refine ⟨(ht.other (c := .attachment a) rfl rfl).of_books (congrArg Books.schemaIDs hbooks)
      hids (congrArg Books.schemas hbooks) (congrArg Books.channels hbooks), ?_⟩
    refine h.quiet rfl (by rw [hs])
      (by rw [hs]) (fun id hid => by rw [hids]; exact hid)
      ?_ ?_ ?_ ?_ (by rw [hs]) (by rw [hs])
      (by rw [hs]) hadds
    · rw [hs, show w'.schemaIDs = w.schemaIDs from congrArg Books.schemaIDs hbooks]
      exact h.schemas
    · rw [hs, hids]
      exact h.channels
    · rw [hs, List.countP_append]
      show w.statistics.attachmentCount + 1 = _
      rw [h.attachments, ofNat32_succ]
      rfl
    · rw [hs, List.countP_append]
      exact h.metadata
  | metadata m =>
    have hbooks : w'.books = _ := hleaves
    have hs : w'.statistics = { w.statistics with
        metadataCount := w.statistics.metadataCount + 1 } := congrArg Books.statistics hbooks
    obtain rfl := hadds.flushed_eq_none rfl
    have hids : w'.channelIDs = w.channelIDs := congrArg Books.channelIDs hbooks
    refine ⟨(ht.other (c := .metadata m) rfl rfl).of_books (congrArg Books.schemaIDs hbooks)
      hids (congrArg Books.schemas hbooks) (congrArg Books.channels hbooks), ?_⟩
    refine h.quiet rfl (by rw [hs])
      (by rw [hs]) (fun id hid => by rw [hids]; exact hid)
      ?_ ?_ ?_ ?_ (by rw [hs]) (by rw [hs])
      (by rw [hs]) hadds
    · rw [hs, show w'.schemaIDs = w.schemaIDs from congrArg Books.schemaIDs hbooks]
      exact h.schemas
    · rw [hs, hids]
      exact h.channels
    · rw [hs, List.countP_append]
      exact h.attachments
    · rw [hs, List.countP_append]
      show w.statistics.metadataCount + 1 = _
      rw [h.metadata, ofNat32_succ]
      rfl

end

/-! ## Sessions -/

section
variable {κ : Type} [ResettableWriteCloser κ] [Packages κ] {opts o : WriterOptions κ}
  {header : Header} {calls cs : List Call} {es : List Entry} {w w' : Writer κ}

omit [ResettableWriteCloser κ] [Packages κ] in
theorem effectiveChunkSize_idem (size : Int) :
    effectiveChunkSize (effectiveChunkSize size) = effectiveChunkSize size := by
  by_cases h0 : size = 0
  · rw [h0]
    rfl
  · simp [effectiveChunkSize, h0]

theorem Settled.size (h : Settled opts o) (hchunked : o.chunked = true) :
    effectiveChunkSize o.chunkSize = o.chunkSize := by
  rcases h with ⟨rfl, hoff⟩ | ⟨c, compression, -, rfl, -⟩
  · rw [hoff] at hchunked
    cases hchunked
  · exact effectiveChunkSize_idem opts.chunkSize

theorem tallied_start (hb : w.books = .empty) (hsize : o.chunked = true →
    effectiveChunkSize o.chunkSize = o.chunkSize) :
    Laid o [] [] [] ∧ Tabled [] w ∧ Tallied o [] [] w := by
  have hs : w.statistics = .zero := congrArg Books.statistics hb
  have hsids : w.schemaIDs = [] := congrArg Books.schemaIDs hb
  have hids : w.channelIDs = [] := congrArg Books.channelIDs hb
  have hschemas : w.schemas = ∅ := congrArg Books.schemas hb
  have hchannels : w.channels = ∅ := congrArg Books.channels hb
  have hempty : ∀ {V : Type} (id : UInt16), (∅ : BTreeMap UInt16 V)[id]? = none :=
    fun _ => Std.ExtTreeMap.getElem?_empty
  refine ⟨⟨hsize, .refl _, rfl, rfl, rfl, rfl, fun _ _ _ h => by cases h⟩, ?_, ?_⟩
  · refine ⟨⟨?_, ?_, ?_⟩, ⟨?_, ?_, ?_⟩, fun id s h => ?_, fun id c h => ?_⟩
    · rw [hsids]
      exact List.nodup_nil
    · rw [hsids]
      exact fun _ => Iff.rfl
    · rw [hsids, hschemas]
      intro id
      rw [BTreeMap.contains_iff, hempty]
      simp
    · rw [hids]
      exact List.nodup_nil
    · rw [hids]
      exact fun _ => Iff.rfl
    · rw [hids, hchannels]
      intro id
      rw [BTreeMap.contains_iff, hempty]
      simp
    · rw [hschemas, hempty] at h
      cases h
    · rw [hchannels, hempty] at h
      cases h
  · refine
      { messages := by rw [hs]; rfl
        channelMessages := fun id => by rw [hs]; rfl
        counted := fun id n h => ?_
        schemas := by rw [hs, hsids]; rfl
        channels := by rw [hs, hids]; rfl
        attachments := by rw [hs]; rfl
        metadata := by rw [hs]; rfl
        chunks := by rw [hs]; rfl
        end_ := by rw [hs]; rfl
        start := fun _ => ⟨fun _ => by rw [hs]; rfl, fun h => absurd rfl h, fun h => by cases h⟩ }
    rw [hs] at h
    exact absurd (h.symm.trans (hempty id)) (by simp)

/-- **Every writer** is described by the entries and the open chunk, and its tables and counters
are those of the calls. -/
theorem Written.described (h : Written opts header calls w) :
    ∃ es cs, Settled opts w.opts ∧ Shows w.opts header es cs w ∧ Laid w.opts calls es cs ∧
      Tabled calls w ∧ Tallied w.opts calls es w ∧ Listed calls es w := by
  induction h with
  | start hnew =>
    obtain ⟨hsettled, hshows, hbooks⟩ := shows_start hnew header
    obtain ⟨hl, ht, hc⟩ := tallied_start hbooks hsettled.size
    exact ⟨[], [], hsettled, hshows, hl, ht, hc, fun m h => (by cases h),
      fun cs ids out h => (by cases h)⟩
  | call h hrun ih =>
    obtain ⟨es, cs, hsettled, hshows, hl, ht, hc, hlisted⟩ := ih
    obtain ⟨es', cs', flushed, hadds, hshows', hleaves⟩ := hshows.run hrun
    obtain ⟨ht', hc'⟩ := hc.step hl ht hleaves hadds
    rw [hshows'.opts]
    exact ⟨es', cs', hsettled, hshows', hl.step hadds, ht', hc', hlisted.step hl ht hadds hleaves⟩

/-! ## Closing -/

/-- The start time of a closed file is right: a message at time 0, if there is one, is in the last
chunk with messages; and if `Close` writes a chunk without messages there is one. -/
def StartKept (o : WriterOptions κ) (calls : List Call) : Prop :=
  o.chunked = true → logTimes calls ≠ [] →
    if (chunking o calls).active ≠ [] ∧ messages (chunking o calls).active = [] then
      0 ∈ logTimes calls
    else 0 ∈ logTimes calls → 0 ∈ logTimes (chunking o calls).last

/-- No counter overflows. -/
structure InRange (o : WriterOptions κ) (calls : List Call) : Prop where
  messages : (messages calls).length < 2 ^ 64
  attachments : calls.countP Call.isAttachment < 2 ^ 32
  metadata : calls.countP Call.isMetadata < 2 ^ 32
  chunks : (chunking o calls).chunks.length < 2 ^ 32

/-- The statistics of a file agree with its data section. -/
structure Agrees (es : List Entry) (s : Statistics) : Prop where
  range : IsRange (logTimes (es.flatMap Entry.flat)) s.messageStartTime s.messageEndTime
  messages : s.messageCount.toNat = (messages (es.flatMap Entry.flat)).length
  channelMessages : ∀ id : UInt16, (s.channelMessageCounts.getD id 0).toNat =
    (Go.messages (es.flatMap Entry.flat)).countP fun m => m.channelID = id
  schemas : s.schemaCount.toNat = (schemaIDs (es.flatMap Entry.flat)).dedup.length
  channels : s.channelCount.toNat = (channelIDs (es.flatMap Entry.flat)).dedup.length
  attachments : s.attachmentCount.toNat = (es.flatMap Entry.flat).countP Call.isAttachment
  metadata : s.metadataCount.toNat = (es.flatMap Entry.flat).countP Call.isMetadata
  chunks : s.chunkCount.toNat = es.countP Entry.isChunk

/-- **The writer when its open chunk is flushed**: the entries hold all calls, and the statistics
are final. -/
structure Finished (o : WriterOptions κ) (header : Header) (calls : List Call) (es : List Entry)
    (w : Writer κ) : Prop where
  shows_ : Shows o header es [] w
  perm : (es.flatMap Entry.flat).Perm calls
  messages : messages (es.flatMap Entry.flat) = messages calls
  ordered : (es.flatMap Entry.flat).filter Call.inChunk = calls.filter Call.inChunk
  chunked : es.filterMap Entry.chunk? = (chunking o calls).chunks
  packed : ∀ cs ids out, .chunk cs ids out ∈ es → Packed o (callBytes cs) out
  tabled : Tabled calls w
  listed : ∀ cs ids out, .chunk cs ids out ∈ es →
    ids.Nodup ∧ ∀ m, .message m ∈ cs → m.channelID ∈ ids
  messageCount : w.statistics.messageCount = .ofNat (Go.messages calls).length
  channelMessages : ∀ id : UInt16, w.statistics.channelMessageCounts.getD id 0 =
    .ofNat ((Go.messages calls).countP fun m => m.channelID = id)
  counted : ∀ (id : UInt16) (n : UInt64), w.statistics.channelMessageCounts[id]? = some n →
    id ∈ w.channelIDs
  schemas : w.statistics.schemaCount = .ofNat w.schemaIDs.length
  channels : w.statistics.channelCount = .ofNat w.channelIDs.length
  attachments : w.statistics.attachmentCount = .ofNat (calls.countP Call.isAttachment)
  metadata : w.statistics.metadataCount = .ofNat (calls.countP Call.isMetadata)
  chunks : w.statistics.chunkCount = .ofNat (es.countP Entry.isChunk)
  end_ : w.statistics.messageEndTime = greatestTime (logTimes calls)
  start : (Go.messages calls).length < 2 ^ 64 →
    (logTimes calls = [] → w.statistics.messageStartTime = 0) ∧
    (logTimes calls ≠ [] →
      (IsLeast {t | t ∈ logTimes calls} w.statistics.messageStartTime ↔ StartKept o calls))

theorem finished_of_empty (hshows : Shows o header es [] w) (hl : Laid o calls es [])
    (ht : Tabled calls w) (hc : Tallied o calls es w) (hlisted : Listed calls es w) :
    Finished o header calls es w where
  shows_ := hshows
  perm := by
    have hperm := hl.perm
    rwa [List.append_nil] at hperm
  messages := by
    have hmessages := hl.messages
    rwa [List.append_nil] at hmessages
  ordered := by
    have hordered := hl.ordered
    rwa [List.append_nil] at hordered
  chunked := by rw [hl.closed, Chunking.chunks, if_pos hl.active.symm]
  packed := hl.packed
  tabled := ht
  listed := hlisted.chunks
  messageCount := hc.messages
  channelMessages := hc.channelMessages
  counted := hc.counted
  schemas := hc.schemas
  channels := hc.channels
  attachments := hc.attachments
  metadata := hc.metadata
  chunks := hc.chunks
  end_ := hc.end_
  start := by
    intro hlt
    have hstart := hc.start hlt
    refine ⟨hstart.none, fun hts => ?_⟩
    rw [hstart.isLeast_iff hts, StartKept, ← hl.active, if_neg (by simp), Seen, ← hl.active,
      Chunking.last, if_pos hl.active.symm]
    cases hch : o.chunked with
    | false => simp
    | true => simp [hts]

theorem finished_of_flushed {out : Bytes} {ids : List UInt16} (hcs : cs ≠ [])
    (hchunked : o.chunked = true)
    (hshows : Shows o header (es ++ [.chunk cs ids out]) [] w') (hout : Packed o (callBytes cs) out)
    (hl : Laid o calls es cs) (ht : Tabled calls w) (hc : Tallied o calls es w)
    (hlisted : Listed calls es w) (hids₀ : ids = w.channelIDs)
    (hstats : w'.statistics = Writer.coverChunk w.statistics (chunkOf o cs out))
    (hids : w'.channelIDs = w.channelIDs) (hsids : w'.schemaIDs = w.schemaIDs)
    (hchannels : w'.channels = w.channels) (hschemas : w'.schemas = w.schemas) :
    Finished o header calls (es ++ [.chunk cs ids out]) w' := by
  have hflat : (es ++ [Entry.chunk cs ids out]).flatMap Entry.flat =
      es.flatMap Entry.flat ++ cs := by
    rw [List.flatMap_append]
    simp [Entry.flat]
  have hactive : (chunking o calls).active ≠ [] := by
    rw [← hl.active]
    exact hcs
  exact
    { shows_ := hshows
      perm := by rw [hflat]; exact hl.perm
      messages := by rw [hflat]; exact hl.messages
      ordered := by rw [hflat]; exact hl.ordered
      chunked := by
        rw [List.filterMap_append, hl.closed, Chunking.chunks, if_neg hactive, ← hl.active]
        rfl
      packed := by
        intro cs₁ ids₁ out₁ hmem
        rcases List.mem_append.mp hmem with hmem | hmem
        · exact hl.packed cs₁ ids₁ out₁ hmem
        · cases List.mem_singleton.mp hmem
          exact hout
      tabled := ht.of_books hsids hids hschemas hchannels
      listed := by
        rw [hids₀]
        exact hlisted.chunk ht fun m hm => .inl (hl.perm.mem_iff.mp (List.mem_append_right _ hm))
      messageCount := by rw [hstats]; exact hc.messages
      channelMessages := by rw [hstats]; exact hc.channelMessages
      counted := by rw [hstats, hids]; exact hc.counted
      schemas := by rw [hstats, hsids]; exact hc.schemas
      channels := by rw [hstats, hids]; exact hc.channels
      attachments := by rw [hstats]; exact hc.attachments
      metadata := by rw [hstats]; exact hc.metadata
      chunks := by
        rw [hstats, List.countP_append]
        show w.statistics.chunkCount + 1 = _
        rw [hc.chunks, ofNat32_succ]
        rfl
      end_ := by
        rw [hstats]
        show (if w.statistics.messageEndTime < _ then _ else _) = _
        rw [hc.end_, if_neg]
        refine UInt64.not_lt.mpr ?_
        show (if _ then _ else _) ≤ _
        split
        · by_cases hnil : logTimes cs = []
          · rw [hnil]
            exact UInt64.zero_le
          · have hmem := hl.mem_logTimes (isGreatest_greatestTime hnil).1
            exact (isGreatest_greatestTime (List.ne_nil_of_mem hmem)).2 hmem
        · exact UInt64.zero_le
      start := by
        intro hlt
        have hstart := hc.start hlt
        have hlen := hl.length_messages
        have hkept : StartKept o calls ↔ (logTimes calls ≠ [] →
            if Go.messages cs = [] then 0 ∈ logTimes calls
            else 0 ∈ logTimes calls → 0 ∈ logTimes cs) := by
          unfold StartKept
          rw [← hl.active, Chunking.last, if_neg hactive, ← hl.active]
          simp [hchunked, hcs]
        have hvalue : w'.statistics.messageStartTime =
            startCovered w.statistics.messageStartTime (chunkOf o cs out).messageStartTime := by
          rw [hstats]
          rfl
        by_cases hnil : Go.messages cs = []
        · have hzero : w'.statistics.messageStartTime = 0 := by
            rw [hvalue, chunkOf, hnil]
            exact startCovered_zero _
          refine ⟨fun _ => hzero, fun hts => ?_⟩
          rw [hkept, if_pos hnil, hzero]
          constructor
          · exact fun hleast _ => hleast.1
          · exact fun h => ⟨h hts, fun _ _ => UInt64.zero_le⟩
        · have hne : logTimes cs ≠ [] := fun h => hnil (List.map_eq_nil_iff.mp h)
          have hmem := hl.mem_logTimes (isLeast_leastTime hne).1
          have hts : logTimes calls ≠ [] := List.ne_nil_of_mem hmem
          have hany : UInt64.ofNat (Go.messages cs).length ≠ 0 := by
            intro hzero
            have hnat := congrArg UInt64.toNat hzero
            rw [UInt64.toNat_ofNat', Nat.mod_eq_of_lt (by omega)] at hnat
            exact hnil (List.length_eq_zero_iff.mp hnat)
          have hfirst : (chunkOf o cs out).messageStartTime = leastTime (logTimes cs) := by
            rw [chunkOf]
            exact if_pos hany
          rw [hvalue, hfirst]
          have hcov := hstart.covered hts (fun t ht => hl.mem_logTimes ht) (isLeast_leastTime hne)
          refine ⟨hcov.none, fun _ => ?_⟩
          rw [hcov.isLeast_iff hts, hkept, if_neg hnil]
          exact ⟨fun h _ => h, fun h => h hts⟩ }

/-- **Every file** that is closed with success was closed from a finished writer. -/
theorem Written.finished (h : Written opts header calls w) (hclose : w.close = .ok w') :
    ∃ w₁ es, Settled opts w₁.opts ∧ Finished w₁.opts header calls es w₁ ∧
      w'.w.out = fileBytes w₁.opts header es w₁ := by
  obtain ⟨es, cs, hsettled, hshows, hl, ht, hc, hlisted⟩ := h.described
  unfold Writer.close at hclose
  obtain ⟨w₁, hflush, hend⟩ := bind_eq_ok hclose
  unfold Writer.closeChunk at hflush
  by_cases hcs : cs = []
  · subst hcs
    have hsame : w₁ = w := by
      split at hflush
      · have hsize : w.compressedWriter.size = 0 := hshows.size
        rw [Writer.flushActiveChunk, if_pos hsize] at hflush
        cases hflush
        rfl
      · cases hflush
        rfl
    subst hsame
    exact ⟨w₁, es, hsettled, finished_of_empty hshows hl ht hc hlisted,
      closeFlushed_out rfl hshows.sizer ht.filed hend⟩
  · have hchunked : w.opts.chunked = true := by
      by_contra hoff
      rw [Bool.not_eq_true] at hoff
      exact hcs (by rw [hl.active, chunking_unchunked hoff])
    rw [if_pos hchunked] at hflush
    have hflush' : w.flushActiveChunk = .ok w₁ := by
      unfold Writer.context Except.mapError at hflush
      split at hflush
      · cases hflush
      · cases hflush
        assumption
    obtain ⟨out, hout, hshows', hstats, hids, hsids, hchannels, hschemas⟩ := hshows.flush hcs hflush'
    have hfin := finished_of_flushed hcs hchunked hshows' hout hl ht hc hlisted rfl hstats hids hsids
      hchannels hschemas
    refine ⟨w₁, _, by rw [hshows'.opts]; exact hsettled, by rw [hshows'.opts]; exact hfin, ?_⟩
    rw [hshows'.opts]
    exact closeFlushed_out hshows'.opts hshows'.sizer hfin.tabled.filed hend

/-! ## The record in the file -/

omit [ResettableWriteCloser κ] [Packages κ] in
theorem Table.length_eq {V : Type} {known ids : List UInt16} {m : BTreeMap UInt16 V}
    (h : Table known ids m) : ids.length = known.dedup.length := by
  refine List.Perm.length_eq ((List.perm_ext_iff_of_nodup h.nodup (List.nodup_dedup _)).mpr ?_)
  intro id
  rw [h.mem, List.mem_dedup]

omit [ResettableWriteCloser κ] [Packages κ] in
theorem Tabled.length_schemaIDs (h : Tabled calls w) : w.schemaIDs.length < 2 ^ 16 := by
  have hzero : (0 : UInt16) ∉ w.schemaIDs := by
    intro hmem
    obtain ⟨s, hs⟩ := (BTreeMap.contains_iff _ _).mp ((h.schemas.contains 0).mpr hmem)
    obtain ⟨hid, hne⟩ := h.filed.schemas 0 s hs
    exact hne hid
  have hle := length_le_of_nodup (List.nodup_cons.mpr ⟨hzero, h.schemas.nodup⟩)
  rwa [List.length_cons] at hle

theorem Finished.countP_isChunk (h : Finished o header calls es w) :
    es.countP Entry.isChunk = (chunking o calls).chunks.length := by
  rw [← h.chunked]
  have hall : ∀ es : List Entry, es.countP Entry.isChunk = (es.filterMap Entry.chunk?).length := by
    intro es
    induction es with
    | nil => rfl
    | cons e es ih =>
      cases e with
      | record c => exact ih
      | chunk cs ids out =>
        rw [List.countP_cons_of_pos rfl, ih]
        rfl
  exact hall es

/-- The statistics of a finished writer agree with its entries just when the counters are in
range and the start time is kept. -/
theorem Finished.agrees_iff (h : Finished o header calls es w) :
    Agrees es w.statistics ↔ InRange o calls ∧ StartKept o calls := by
  have htimes : logTimes (es.flatMap Entry.flat) = logTimes calls := by
    rw [logTimes, h.messages, logTimes]
  have hperm := h.perm
  constructor
  · intro hagrees
    have hmessages : (Go.messages calls).length < 2 ^ 64 := by
      rw [← h.messages, ← hagrees.messages]
      exact w.statistics.messageCount.toNat_lt
    refine ⟨⟨hmessages, ?_, ?_, ?_⟩, ?_⟩
    · rw [← hperm.countP_eq, ← hagrees.attachments]
      exact w.statistics.attachmentCount.toNat_lt
    · rw [← hperm.countP_eq, ← hagrees.metadata]
      exact w.statistics.metadataCount.toNat_lt
    · rw [← h.countP_isChunk, ← hagrees.chunks]
      exact w.statistics.chunkCount.toNat_lt
    · intro hchunked hts
      have hrange := hagrees.range
      rw [htimes] at hrange
      exact ((h.start hmessages).2 hts).mp (hrange.start hts) hchunked hts
  · rintro ⟨hin, hkept⟩
    obtain ⟨hnone, hleast⟩ := h.start hin.messages
    exact
      { range := by
          rw [htimes]
          refine ⟨fun hnil => ⟨hnone hnil, ?_⟩, fun hts => (hleast hts).mpr hkept, fun hts => ?_⟩
          · rw [h.end_, hnil]
            rfl
          · rw [h.end_]
            exact isGreatest_greatestTime hts
        messages := by
          rw [h.messageCount, h.messages, UInt64.toNat_ofNat', Nat.mod_eq_of_lt hin.messages]
        channelMessages := by
          intro id
          have hle := List.countP_le_length (p := fun m : Message => m.channelID = id)
            (l := Go.messages calls)
          have hlt := hin.messages
          rw [h.channelMessages, h.messages, UInt64.toNat_ofNat', Nat.mod_eq_of_lt (by omega)]
        schemas := by
          have hlt := h.tabled.length_schemaIDs
          rw [h.schemas, UInt16.toNat_ofNat', Nat.mod_eq_of_lt hlt, h.tabled.schemas.length_eq]
          exact (hperm.filterMap _).dedup.length_eq.symm
        channels := by
          have hle := length_le_of_nodup h.tabled.channels.nodup
          rw [h.channels, UInt32.toNat_ofNat', Nat.mod_eq_of_lt (by omega),
            h.tabled.channels.length_eq]
          exact (hperm.filterMap _).dedup.length_eq.symm
        attachments := by
          rw [h.attachments, UInt32.toNat_ofNat', Nat.mod_eq_of_lt hin.attachments,
            hperm.countP_eq]
        metadata := by
          rw [h.metadata, UInt32.toNat_ofNat', Nat.mod_eq_of_lt hin.metadata, hperm.countP_eq]
        chunks := by
          rw [h.chunks, UInt32.toNat_ofNat', h.countP_isChunk, Nat.mod_eq_of_lt hin.chunks] }

omit [ResettableWriteCloser κ] [Packages κ] in
theorem filter_groupIf (present : Bool) (groupOpcode opcode : UInt8)
    {records : List (UInt8 × Bytes)} (h : ∀ r ∈ records, r.1 = groupOpcode) :
    (groupRecords (groupIf present groupOpcode records)).filter (·.1 = opcode) =
      if present = true ∧ groupOpcode = opcode then records else [] := by
  cases present with
  | false => simp [groupIf, groupRecords]
  | true =>
    simp only [groupIf, groupRecords, if_true, List.flatMap_cons, List.flatMap_nil,
      List.append_nil, true_and]
    split
    · rename_i he
      exact List.filter_eq_self.mpr fun r hr => by simp [h r hr, he]
    · rename_i he
      exact List.filter_eq_nil_iff.mpr fun r hr => by simp [h r hr, he]

omit [ResettableWriteCloser κ] [Packages κ] in
theorem Writer.filter_statistics (w : Writer κ) (hstats : w.opts.skipStatistics = false)
    (pos : Nat) : (groupRecords w.groups ++ w.offsetRecords pos).filter (·.1 = op.STATISTICS) =
      [(op.STATISTICS, w.statistics.body w.channelIDs)] := by
  have hoffsets : (w.offsetRecords pos).filter (·.1 = op.STATISTICS) = [] := by
    refine List.filter_eq_nil_iff.mpr fun r hr => ?_
    unfold Writer.offsetRecords at hr
    split at hr
    · cases hr
    · obtain ⟨s, -, rfl⟩ := List.mem_map.mp hr
      simp [op.SUMMARY_OFFSET, op.STATISTICS]
  have hfind : ∀ {α : Type} {opcode : UInt8} {ids : List UInt16} {f : UInt16 → Option α}
      {g : α → Bytes}, ∀ r ∈ ids.filterMap (fun id => (f id).map fun x => (opcode, g x)),
        r.1 = opcode := by
    intro α opcode ids f g r hr
    obtain ⟨id, -, hid⟩ := List.mem_filterMap.mp hr
    obtain ⟨x, -, rfl⟩ := Option.map_eq_some_iff.mp hid
    rfl
  have hmap : ∀ {α : Type} {opcode : UInt8} {l : List α} {g : α → Bytes},
      ∀ r ∈ l.map (fun x => (opcode, g x)), r.1 = opcode := by
    intro α opcode l g r hr
    obtain ⟨x, -, rfl⟩ := List.mem_map.mp hr
    rfl
  rw [List.filter_append, hoffsets, List.append_nil]
  unfold Writer.groups
  simp only [groupRecords_append, List.filter_append]
  rw [filter_groupIf _ _ _ (by exact hfind), filter_groupIf _ _ _ (by exact hfind),
    filter_groupIf _ _ _ (by simp), filter_groupIf _ _ _ hmap, filter_groupIf _ _ _ hmap,
    filter_groupIf _ _ _ hmap]
  simp [hstats, op.SCHEMA, op.CHANNEL, op.STATISTICS, op.CHUNK_INDEX, op.ATTACHMENT_INDEX,
    op.METADATA_INDEX]

theorem Settled.chunking (h : Settled opts o) (calls : List Call) :
    chunking o calls = chunking opts calls := by
  rcases h with ⟨rfl, -⟩ | ⟨c, compression, -, rfl, -⟩
  · rfl
  · have hadd : Chunking.add (opts.adjusted compression) = Chunking.add opts := by
      funext p c
      have hsize : effectiveChunkSize (opts.adjusted compression).chunkSize =
          effectiveChunkSize opts.chunkSize := effectiveChunkSize_idem opts.chunkSize
      unfold Chunking.add
      rw [hsize]
      rfl
    rw [Go.chunking, hadd, Go.chunking]

theorem Settled.inRange_and_startKept (h : Settled opts o) (calls : List Call) :
    InRange o calls ∧ StartKept o calls ↔ InRange opts calls ∧ StartKept opts calls := by
  have hchunked : o.chunked = opts.chunked := by
    rcases h with ⟨rfl, -⟩ | ⟨c, compression, -, rfl, -⟩ <;> rfl
  have hchunking := h.chunking calls
  refine and_congr ⟨fun hin => ?_, fun hin => ?_⟩ ?_
  · exact ⟨hin.messages, hin.attachments, hin.metadata, by rw [← hchunking]; exact hin.chunks⟩
  · exact ⟨hin.messages, hin.attachments, hin.metadata, by rw [hchunking]; exact hin.chunks⟩
  · unfold StartKept
    rw [hchunking, hchunked]

/-- **The statistics of a file.**  A file that is written with statistics has one statistics
record, behind the entries of the data section, which hold the records of the calls and all
messages in order.  What it parses to agrees with the data section if and only if no counter
overflows and the start time is kept. -/
theorem statistics_iff (hstats : opts.skipStatistics = false)
    (h : writeFile opts header calls = .ok w) :
    ∃ o es summary footer body s, Settled opts o ∧
      w.w.out = dataSection o header es ++ frames (summary ++ [(op.FOOTER, footer)]) ++ MAGIC ∧
      (es.flatMap Entry.flat).Perm calls ∧ messages (es.flatMap Entry.flat) = messages calls ∧
      (∀ cs ids out, .chunk cs ids out ∈ es → Packs κ (callBytes cs) out) ∧
      summary.filter (·.1 = op.STATISTICS) = [(op.STATISTICS, body)] ∧
      parseStatistics body = .ok s ∧ (Agrees es s ↔ InRange opts calls ∧ StartKept opts calls) := by
  obtain ⟨w₀, hwritten, hclose⟩ := written_of_writeFile h
  obtain ⟨w₁, es, hsettled, hfin, hout⟩ := hwritten.finished hclose
  have hskip : w₁.opts.skipStatistics = false := by
    rcases hsettled with ⟨he, -⟩ | ⟨c, compression, -, he, -⟩
    · rw [he]
      exact hstats
    · rw [he]
      exact hstats
  refine ⟨w₁.opts, es, _, (footerRecord w₁ (dataSection w₁.opts header es).length).2, _, _,
    hsettled, ?_, hfin.perm, hfin.messages,
    fun cs ids out hmem => (hfin.packed cs ids out hmem).packs,
    w₁.filter_statistics hskip (dataSection w₁.opts header es).length,
    parseStatistics_body hfin.tabled.channels.nodup hfin.counted,
    hfin.agrees_iff.trans (hsettled.inRange_and_startKept calls)⟩
  rw [hout, fileBytes, summarySection]
  simp only [frames_append, List.append_assoc]
  rfl

end

/-- A compressor that stores its input. -/
structure Plain where

instance : ResettableWriteCloser Plain where
  write c p := .ok (c, p)
  close c := .ok (c, [])
  reset c := c

instance : Packages Plain where
  zstd _ := .ok {}
  lz4 _ := {}

/-- Chunks without compression that are closed behind each message. -/
def smallChunks : WriterOptions Plain where
  includeCRC := false
  chunked := true
  chunkSize := 1
  compression := compressionNone
  compressionLevel := .default
  skipMessageIndexing := false
  skipStatistics := false
  skipRepeatedSchemas := false
  skipRepeatedChannelInfos := false
  skipAttachmentIndex := false
  skipMetadataIndex := false
  skipChunkIndex := false
  skipSummaryOffsets := false
  overrideLibrary := true
  skipMagic := false
  compressor := none

/-- A message at time 0 and one at time 5. -/
def twoTimes : List Call :=
  [.channel ⟨1, 0, [116], [], ∅⟩, .message ⟨1, 0, 0, 0, []⟩, .message ⟨1, 1, 5, 5, []⟩]

/-- The body of the first record of an opcode, from the records at the start of some bytes. -/
def findRecord (opcode : UInt8) : Nat → Bytes → Option Bytes
  | 0, _ => none
  | fuel + 1, bytes =>
      let length := ofLe ((bytes.drop 1).take 8)
      if bytes.head? = some opcode then some ((bytes.drop 9).take length)
      else findRecord opcode fuel (bytes.drop (9 + length))

/-- The statistics in the file of a writer. -/
def statisticsOf (w : Writer Plain) : Option Statistics :=
  (findRecord op.STATISTICS w.w.out.length (w.w.out.drop MAGIC.length)).bind fun body =>
    match parseStatistics body with
    | .ok s => some s
    | _ => none

/-- The second chunk starts at time 5, and hides the message at time 0. -/
theorem start_time_lost : ∃ w s, writeFile smallChunks ⟨[], []⟩ twoTimes = .ok w ∧
    statisticsOf w = some s ∧ s.messageStartTime = 5 ∧ 0 ∈ logTimes twoTimes := by
  have hrun : ((writeFile smallChunks ⟨[], []⟩ twoTimes).toOption.bind statisticsOf).map
      Statistics.messageStartTime = some 5 := by decide +kernel
  rcases hw : writeFile smallChunks ⟨[], []⟩ twoTimes with e | w
  · rw [hw] at hrun
    cases hrun
  · rw [hw] at hrun
    obtain ⟨s, hs, hstart⟩ := Option.map_eq_some_iff.mp hrun
    exact ⟨w, s, rfl, hs, hstart, by decide⟩

/-- The file of these two messages. -/
theorem statistics_iff_twoTimes : ∃ (w : Writer Plain) (o : WriterOptions Plain) (es : List Entry)
    (s : Statistics), writeFile smallChunks ⟨[], []⟩ twoTimes = .ok w ∧
      (es.flatMap Entry.flat).Perm twoTimes ∧
      (Agrees es s ↔ InRange smallChunks twoTimes ∧ StartKept smallChunks twoTimes) ∧
      Settled smallChunks o := by
  have hrun : (writeFile smallChunks ⟨[], []⟩ twoTimes).toOption.isSome = true := by decide +kernel
  rcases hw : writeFile smallChunks ⟨[], []⟩ twoTimes with e | w
  · rw [hw] at hrun
    cases hrun
  · obtain ⟨o, es, summary, footer, body, s, hsettled, -, hperm, -, -, -, -, hagrees⟩ :=
      statistics_iff (by rfl) hw
    exact ⟨w, o, es, s, rfl, hperm, hagrees, hsettled⟩

end Go
end Mcap

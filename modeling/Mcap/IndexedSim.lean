import Mcap.IndexedFile

/-! # The indexed reader is a lazy merge

`Refines` relates a state of `IndexedReader` to a state of the abstract merge: the
chunk indexes from the current one on are the waiting chunks, the message indexes
from the current one on point, slot by slot, to the ready messages, and each slot
counts the unread messages in it.  The last is what makes it safe to use a slot
again.

`next_yield`, `next_load` and `next_done` are the three outcomes of `next_event`, and
`insert_spec` is the insertion of a chunk; `delivers_of_merge` puts them together.
-/
namespace Mcap
namespace IndexedReader

/-! ## Records in a buffer -/

theorem splitRecord_frame (opcode : UInt8) {body : Bytes} (rest : Bytes)
    (h : body.length < 2 ^ 64) :
    splitRecord (frame opcode body ++ rest) = .ok (opcode, body.length, body ++ rest) := by
  have hlen : ¬ (le 8 body.length ++ body ++ rest).length < 8 := by
    simp only [List.length_append, length_le]
    omega
  have htake : (le 8 body.length ++ (body ++ rest)).take 8 = le 8 body.length := by
    rw [List.take_append_of_le_length (by simp), List.take_of_length_le (by simp)]
  have hdrop : (le 8 body.length ++ (body ++ rest)).drop 8 = body ++ rest := by
    rw [List.drop_append_of_le_length (by simp), List.drop_eq_nil_of_le (by simp),
      List.nil_append]
  show splitRecord (opcode :: (le 8 body.length ++ body ++ rest)) = _
  rw [splitRecord, if_neg hlen, List.append_assoc, htake, hdrop,
    ofLe_le_of_lt (show _ < 256 ^ 8 from h)]

/-- Every record of a chunk is shorter than the limit, and every message has a
header. -/
structure RecordsOk (limit : Option Nat) (records : List (UInt8 × Bytes)) : Prop where
  size : (frames records).length < 2 ^ 64
  limit : ∀ l, limit = some l → (frames records).length ≤ l
  messages : ∀ body, (op.MESSAGE, body) ∈ records → 22 ≤ body.length

section
variable {limit : Option Nat} {opcode : UInt8} {body : Bytes} {records : List (UInt8 × Bytes)}

theorem RecordsOk.tail (h : RecordsOk limit ((opcode, body) :: records)) :
    RecordsOk limit records := by
  have hlen : (frames ((opcode, body) :: records)).length =
      9 + body.length + (frames records).length := by
    rw [frames_cons, List.length_append, length_frame]
  refine ⟨by have := h.size; omega, fun l hl => ?_, fun body hb => h.messages body (.tail _ hb)⟩
  have := h.limit l hl
  omega

theorem RecordsOk.head (h : RecordsOk limit ((opcode, body) :: records)) :
    body.length < 2 ^ 64 ∧ checkLen body.length limit = some body.length := by
  have hlen : (frames ((opcode, body) :: records)).length =
      9 + body.length + (frames records).length := by
    rw [frames_cons, List.length_append, length_frame]
  refine ⟨by have := h.size; omega, checkLen_of_le fun l hl => ?_⟩
  have := h.limit l hl
  omega

theorem RecordsOk.message (h : RecordsOk limit ((op.MESSAGE, body) :: records)) :
    ∃ header c, readLeFrom MessageHeader.read body = .ok (header, c) :=
  (readLeFrom_takes MessageHeader.takes_read body).2 (h.messages body List.mem_cons_self)

/-- A record that can be read: its length is within the limit, and a message has a
header. -/
structure Readable (limit : Option Nat) (record : UInt8 × Bytes) : Prop where
  size : record.2.length < 2 ^ 64
  limit : checkLen record.2.length limit = some record.2.length
  header : record.1 = op.MESSAGE → 22 ≤ record.2.length

theorem Readable.message (h : Readable limit (op.MESSAGE, body)) :
    ∃ header c, readLeFrom MessageHeader.read body = .ok (header, c) :=
  (readLeFrom_takes MessageHeader.takes_read body).2 (h.header rfl)

theorem RecordsOk.readable (h : RecordsOk limit records) {record : UInt8 × Bytes}
    (hr : record ∈ records) : Readable limit record := by
  induction records with
  | nil => cases hr
  | cons first records ih =>
    rcases List.mem_cons.mp hr with rfl | hr
    · refine ⟨h.head.1, h.head.2, fun hop => h.messages _ ?_⟩
      rw [← hop]
      exact List.mem_cons_self
    · exact ih h.tail hr

theorem readMessage_of_locate {ds : Nat} {l : Located} {slot : ChunkSlot} (pre rest : Bytes)
    (hok : ∀ record ∈ records, Readable limit record) (hl : l ∈ locate ds pre.length records)
    (hbuf : slot.buf = pre ++ (frames records ++ rest)) :
    readMessage limit slot l.offset = .ok (l.header, l.data) := by
  induction records generalizing pre with
  | nil => cases hl
  | cons record records ih =>
    obtain ⟨opcode, body⟩ := record
    have hlater : l ∈ locate ds (pre.length + 9 + body.length) records →
        readMessage limit slot l.offset = .ok (l.header, l.data) := by
      intro hl
      refine ih (pre ++ frame opcode body) (fun r hr => hok r (List.mem_cons_of_mem _ hr)) ?_ ?_
      · rw [List.length_append, length_frame, ← Nat.add_assoc]
        exact hl
      · rw [hbuf, frames_cons]
        simp only [List.append_assoc]
    simp only [locate] at hl
    split at hl
    · rename_i hop
      subst hop
      have hfirst := hok _ List.mem_cons_self
      obtain ⟨header, c, hread⟩ := hfirst.message
      rw [hread] at hl
      rcases List.mem_cons.mp hl with rfl | hl
      · have hcheck := hfirst.limit
        have hdrop : slot.buf.drop pre.length =
            frame op.MESSAGE body ++ (frames records ++ rest) := by
          rw [hbuf, List.drop_left, frames_cons, List.append_assoc]
        have hhead : frame op.MESSAGE body ++ (frames records ++ rest) =
            op.MESSAGE :: (le 8 body.length ++ body ++ (frames records ++ rest)) := rfl
        have hin : ¬ pre.length > slot.buf.length := by
          rw [hbuf, List.length_append]
          omega
        have hsplit := splitRecord_frame op.MESSAGE (frames records ++ rest) hfirst.size
        rw [hhead] at hsplit
        simp only [readMessage, if_neg hin, hdrop, hhead, ne_eq, not_true_eq_false, if_false,
          hsplit, hcheck]
        rw [if_neg (by rw [List.length_append]; omega), List.take_left, hread]
      · exact hlater hl
    · exact hlater hl

end

/-! ## Indexing a chunk -/

theorem toNat_max (a b : UInt64) : (max a b).toNat = max a.toNat b.toNat := by
  show (if a ≤ b then b else a).toNat = _
  split
  · rename_i h
    rw [UInt64.le_iff_toNat_le] at h
    omega
  · rename_i h
    rw [UInt64.le_iff_toNat_le] at h
    omega

/-- The index of a message in slot `slotIdx`. -/
def slotIndex (slotIdx : Nat) (l : Located) : SlotIndex :=
  { chunkSlotIdx := slotIdx, logTime := l.header.logTime, offset := l.offset }

/-- **The loop of `index_messages`** pushes an index for each message that passes the
filter.  If it does not ask for sorting, the messages are in order of log time. -/
theorem scan_spec (slotIdx : Nat) (order : ReadOrder) (filter : Filter) {limit : Option Nat}
    (ds : Nat) {records : List (UInt8 × Bytes)} (hok : RecordsOk limit records) {fuel : Nat}
    (hfuel : records.length ≤ fuel) (off : Nat) (s : Scan) :
    ∃ s', scan slotIdx order filter limit fuel off (frames records) s = (.ok (), s') ∧
      s'.messageIndexes = s.messageIndexes ++
        ((locate ds off records).filter fun l => Filter.accepts filter l.header).map
          (slotIndex slotIdx) ∧
      (s'.sortingRequired = false → s.sortingRequired = false ∧ (order ≠ .file →
        (∀ l ∈ (locate ds off records).filter fun l => Filter.accepts filter l.header,
          s.latestTimestamp.toNat ≤ l.header.logTime.toNat) ∧
        ((locate ds off records).filter fun l => Filter.accepts filter l.header).Pairwise
          fun a b => a.header.logTime.toNat ≤ b.header.logTime.toNat)) := by
  induction records generalizing fuel off s with
  | nil =>
    refine ⟨s, ?_, by simp [locate], fun h => ⟨h, fun _ => ⟨by simp [locate], by simp [locate]⟩⟩⟩
    cases fuel <;> simp [scan]
  | cons record records ih =>
    obtain ⟨opcode, body⟩ := record
    obtain ⟨fuel, rfl⟩ : ∃ n, fuel = n + 1 := ⟨fuel - 1, by simp at hfuel; omega⟩
    have hfuel' : records.length ≤ fuel := by simpa using hfuel
    obtain ⟨hlt, hcheck⟩ := hok.head
    have hne : ¬ frames ((opcode, body) :: records) = [] := by simp [frame]
    have hlen : ¬ (body ++ frames records).length < body.length := by
      rw [List.length_append]
      omega
    have hsplit : splitRecord (frames ((opcode, body) :: records)) =
        .ok (opcode, body.length, body ++ frames records) := splitRecord_frame opcode _ hlt
    simp only [scan, if_neg hne, hsplit, hcheck, if_neg hlen, List.take_left, List.drop_left]
    by_cases hop : opcode = op.MESSAGE
    · subst hop
      obtain ⟨header, c, hread⟩ := hok.message
      simp only [ne_eq, not_true_eq_false, if_false, hread, locate, if_true, List.filter_cons]
      by_cases hacc : Filter.accepts filter header = true
      · simp only [hacc, if_true]
        -- this message is indexed, and the loop goes on with what it learned
        obtain ⟨s', hrun, hidx, hsort⟩ := ih hok.tail hfuel' (off + 9 + body.length)
          { sortingRequired :=
              if !s.sortingRequired && order ≠ .file then
                decide (header.logTime < s.latestTimestamp)
              else s.sortingRequired
            latestTimestamp := max s.latestTimestamp header.logTime
            messageIndexes := s.messageIndexes ++
              [{ chunkSlotIdx := slotIdx, logTime := header.logTime, offset := off }] }
        refine ⟨s', hrun, ?_, fun h => ?_⟩
        · rw [hidx, List.append_assoc]
          rfl
        · obtain ⟨hs, hrest⟩ := hsort h
          have hold : s.sortingRequired = false := by
            cases hsr : s.sortingRequired with
            | false => rfl
            | true => simp [hsr] at hs
          refine ⟨hold, fun hfile => ?_⟩
          obtain ⟨hge, hpair⟩ := hrest hfile
          have hnot : ¬ header.logTime < s.latestTimestamp := by simpa [hold, hfile] using hs
          rw [UInt64.lt_iff_toNat_lt] at hnot
          simp only [toNat_max] at hge
          refine ⟨fun l hl => ?_, List.pairwise_cons.mpr ⟨fun l hl => ?_, hpair⟩⟩
          · rcases List.mem_cons.mp hl with rfl | hl
            · show _ ≤ header.logTime.toNat
              omega
            · have := hge l hl
              omega
          · have := hge l hl
            show header.logTime.toNat ≤ _
            omega
      · simp only [hacc]
        exact ih hok.tail hfuel' _ s
    · simp only [ne_eq, hop, not_false_eq_true, if_true, locate, if_false]
      exact ih hok.tail hfuel' _ s

/-! ## Sorting -/

/-- The index points, through its slot, to the message. -/
structure Holds (limit : Option Nat) (slots : List ChunkSlot) (i : SlotIndex) (l : Located) :
    Prop where
  offset : i.offset = l.offset
  logTime : i.logTime = l.header.logTime
  slot : ∃ slot, slots[i.chunkSlotIdx]? = some slot ∧ slot.dataStart.toNat = l.dataStart ∧
    readMessage limit slot l.offset = .ok (l.header, l.data)

variable {slots : List ChunkSlot}

theorem Holds.dataStart {limit : Option Nat} {i : SlotIndex} {l : Located}
    (h : Holds limit slots i l) : IndexedReader.dataStart slots i = l.dataStart := by
  obtain ⟨slot, hslot, hds, -⟩ := h.slot
  rw [IndexedReader.dataStart, hslot]
  exact hds

theorem forall₂_orderedInsert {α β : Type} {R : α → β → Prop} {p : α → α → Prop}
    {q : β → β → Prop} [DecidableRel p] [DecidableRel q]
    (hpq : ∀ a b a' b', R a b → R a' b' → (p a a' ↔ q b b')) {a : α} {b : β} (hab : R a b)
    {xs : List α} {ys : List β} (h : List.Forall₂ R xs ys) :
    List.Forall₂ R (xs.orderedInsert p a) (ys.orderedInsert q b) := by
  induction h with
  | nil => exact .cons hab .nil
  | cons hxy hrest ih =>
    simp only [List.orderedInsert_cons, hpq _ _ _ _ hab hxy]
    split
    · exact .cons hab (.cons hxy hrest)
    · exact .cons hxy ih

theorem forall₂_insertionSort {α β : Type} {R : α → β → Prop} {p : α → α → Prop}
    {q : β → β → Prop} [DecidableRel p] [DecidableRel q]
    (hpq : ∀ a b a' b', R a b → R a' b' → (p a a' ↔ q b b')) {xs : List α} {ys : List β}
    (h : List.Forall₂ R xs ys) : List.Forall₂ R (xs.insertionSort p) (ys.insertionSort q) := by
  induction h with
  | nil => exact .nil
  | cons hxy _ ih => exact forall₂_orderedInsert hpq hxy ih

/-- The sort of the unread indexes sorts the messages they point to by their
keys. -/
theorem sortUnread_spec {limit : Option Nat} (order : ReadOrder) {unread : List SlotIndex}
    {ready : List Located} (h : List.Forall₂ (Holds limit slots) unread ready) :
    List.Forall₂ (Holds limit slots) (sortUnread order slots unread)
      (ready.insertionSort fun a b => a.key order ≤ b.key order) := by
  cases order <;>
    refine forall₂_insertionSort (fun i l i' l' hi hi' => ?_) h <;>
    simp only [hi.dataStart, hi'.dataStart, hi.logTime, hi'.logTime, hi.offset, hi'.offset,
      Located.key, Prod.Lex.toLex_le_toLex] <;>
    omega

theorem pairwise_key {order : ReadOrder} {ls : List Located} (ds : Nat)
    (hds : ∀ l ∈ ls, l.dataStart = ds)
    (hoff : ls.Pairwise fun a b => a.offset < b.offset)
    (htime : order ≠ .file →
      ls.Pairwise fun a b => a.header.logTime.toNat ≤ b.header.logTime.toNat) :
    (if order = .reverseLogTime then ls.reverse else ls).Pairwise
      fun a b => a.key order ≤ b.key order := by
  have hall : ls.Pairwise fun a b => a.dataStart = b.dataStart ∧ a.offset < b.offset ∧
      (order ≠ .file → a.header.logTime.toNat ≤ b.header.logTime.toNat) := by
    by_cases hfile : order = .file
    · refine hoff.imp_of_mem fun ha hb h => ⟨by rw [hds _ ha, hds _ hb], h, fun hn => ?_⟩
      exact absurd hfile hn
    · exact (hoff.and (htime hfile)).imp_of_mem fun ha hb h =>
        ⟨by rw [hds _ ha, hds _ hb], h.1, fun _ => h.2⟩
  cases order with
  | logTime =>
    refine hall.imp fun {a b} h => ?_
    have := h.2.2 (by simp)
    simp only [Located.key, Prod.Lex.toLex_le_toLex]
    omega
  | reverseLogTime =>
    refine List.pairwise_reverse.mpr (hall.imp fun {a b} h => ?_)
    have := h.2.2 (by simp)
    simp only [Located.key, Prod.Lex.toLex_le_toLex]
    omega
  | file =>
    refine hall.imp fun {a b} h => ?_
    simp only [Located.key, Prod.Lex.toLex_le_toLex]
    omega

/-- **`index_messages`** adds the messages of a chunk to the unread ones, in order. -/
theorem indexMessages_spec {slotIdx : Nat} (order : ReadOrder) {filter : Filter}
    {limit : Option Nat} {messageIndexes : List SlotIndex} {cur ds : Nat}
    {records : List (UInt8 × Bytes)} {ready new : List Located} (hok : RecordsOk limit records)
    (hnew : new = (locate ds 0 records).filter fun l => Filter.accepts filter l.header)
    (hslot : ∀ l ∈ new, Holds limit slots (slotIndex slotIdx l) l)
    (hready : List.Forall₂ (Holds limit slots) (messageIndexes.drop cur) ready)
    (hcur : cur < messageIndexes.length ∨ messageIndexes = [] ∧ cur = 0) :
    ∃ indexes ready', indexMessages slotIdx slots (frames records) order filter messageIndexes cur
        limit = (.ok new.length, indexes) ∧
      cur ≤ indexes.length ∧
      (indexes.drop cur).Perm (messageIndexes.drop cur ++ new.map (slotIndex slotIdx)) ∧
      ready'.Perm (ready ++ new) ∧ (ready'.Pairwise fun a b => a.key order ≤ b.key order) ∧
      List.Forall₂ (Holds limit slots) (indexes.drop cur) ready' := by
  have hfuel : records.length ≤ (frames records).length :=
    length_le_flatMap fun p _ => by simp [frame]
  obtain ⟨s, hscan, hidx, hsort⟩ := scan_spec slotIdx order filter ds hok hfuel 0
    { sortingRequired := !messageIndexes.isEmpty, latestTimestamp := 0, messageIndexes }
  rw [← hnew] at hidx hsort
  have hcurle : cur ≤ messageIndexes.length := by
    rcases hcur with h | ⟨rfl, rfl⟩
    · exact h.le
    · exact Nat.le_refl _
  -- the new messages, in the order in which they are appended
  obtain ⟨new', hnew', hperm⟩ : ∃ new', new' = (if order = .reverseLogTime then new.reverse else new) ∧
      new'.Perm new := by
    refine ⟨_, rfl, ?_⟩
    split
    · exact List.reverse_perm new
    · exact .refl _
  have hindexes : reverseNew order messageIndexes.length s.messageIndexes =
      messageIndexes ++ new'.map (slotIndex slotIdx) := by
    rw [hidx, hnew']
    cases order <;> simp [reverseNew]
  have hholds : List.Forall₂ (Holds limit slots) (new'.map (slotIndex slotIdx)) new' := by
    refine List.forall₂_map_left_iff.mpr (List.forall₂_same.mpr fun l hl => ?_)
    exact hslot l (hperm.subset hl)
  have hdrop : (messageIndexes ++ new'.map (slotIndex slotIdx)).drop cur =
      messageIndexes.drop cur ++ new'.map (slotIndex slotIdx) := List.drop_append_of_le_length hcurle
  have hrun : indexMessages slotIdx slots (frames records) order filter messageIndexes cur limit =
      let indexes := messageIndexes ++ new'.map (slotIndex slotIdx)
      let indexes :=
        if s.sortingRequired then indexes.take cur ++ sortUnread order slots (indexes.drop cur)
        else indexes
      (.ok (indexes.length - messageIndexes.length), indexes) := by
    rw [← hindexes, indexMessages, hscan]
  rw [hrun]
  cases hs : s.sortingRequired with
  | false =>
    obtain ⟨hempty, htime⟩ := hsort hs
    have hnil : messageIndexes = [] := by simpa using hempty
    subst hnil
    have hzero : cur = 0 := by simpa using hcurle
    subst hzero
    cases hready
    refine ⟨new'.map (slotIndex slotIdx), new', ?_, Nat.zero_le _, ?_, hperm, ?_, hholds⟩
    · simp [hperm.length_eq]
    · simpa using hperm.map _
    · rw [hnew']
      refine pairwise_key ds (fun l hl => ?_) ?_ fun hfile => (htime hfile).2
      · rw [hnew] at hl
        exact (locate_dataStart (List.mem_of_mem_filter hl)).1
      · rw [hnew]
        exact (pairwise_locate ds 0 records).filter _
  | true =>
    have hlen : (messageIndexes.take cur).length = cur := by
      rw [List.length_take]
      omega
    have htake : (messageIndexes ++ new'.map (slotIndex slotIdx)).take cur =
        messageIndexes.take cur := List.take_append_of_le_length hcurle
    have hsperm : ∀ unread, (sortUnread order slots unread).Perm unread := by
      intro unread
      cases order <;> exact List.perm_insertionSort _ _
    have hafter : ∀ l : List SlotIndex, (messageIndexes.take cur ++ l).drop cur = l := by
      intro l
      rw [List.drop_append, List.drop_eq_nil_of_le hlen.le, hlen, Nat.sub_self, List.drop_zero,
        List.nil_append]
    refine ⟨messageIndexes.take cur ++ sortUnread order slots
        (messageIndexes.drop cur ++ new'.map (slotIndex slotIdx)),
      (ready ++ new').insertionSort (fun a b => a.key order ≤ b.key order), ?_, ?_, ?_, ?_, ?_, ?_⟩
    · simp only [if_true, htake, hdrop, List.length_append, hlen, (hsperm _).length_eq,
        List.length_map, hperm.length_eq, List.length_drop]
      congr 2
      omega
    · rw [List.length_append]
      omega
    · rw [hafter]
      exact (hsperm _).trans ((hperm.map _).append_left _)
    · exact (List.perm_insertionSort _ _).trans (hperm.append_left _)
    · exact List.pairwise_insertionSort _ _
    · rw [hafter]
      exact sortUnread_spec order (List.rel_append hready hholds)

/-! ## Slots -/

theorem findOrMakeChunkSlot_spec (ds : UInt64) (slots : List ChunkSlot) :
    ∃ i slots', findOrMakeChunkSlot ds slots = (i, slots') ∧
      slots'[i]? = some { buf := [], dataStart := ds, messageCount := 0 } ∧
      (∀ j, j ≠ i → slots'[j]? = slots[j]?) ∧
      ∀ slot, slots[i]? = some slot → slot.messageCount = 0 := by
  induction slots with
  | nil =>
    refine ⟨0, _, rfl, rfl, fun j hj => ?_, by simp⟩
    obtain ⟨j, rfl⟩ := Nat.exists_eq_succ_of_ne_zero hj
    rfl
  | cons slot slots ih =>
    rw [findOrMakeChunkSlot]
    split
    · rename_i hfree
      refine ⟨0, _, rfl, by simp [hfree], fun j hj => ?_, by simp [hfree]⟩
      obtain ⟨j, rfl⟩ := Nat.exists_eq_succ_of_ne_zero hj
      rfl
    · obtain ⟨i, slots', hrun, hi, hother, hfree⟩ := ih
      rw [hrun]
      refine ⟨i + 1, slot :: slots', rfl, hi, fun j hj => ?_, hfree⟩
      cases j with
      | zero => rfl
      | succ j => exact hother j (by omega)

theorem readMessage_congr {limit : Option Nat} {slot slot' : ChunkSlot} (h : slot'.buf = slot.buf)
    (offset : Nat) : readMessage limit slot' offset = readMessage limit slot offset := by
  simp only [readMessage, h]

variable {i : SlotIndex}

theorem Holds.of_slot {limit : Option Nat} {slots' : List ChunkSlot} {l : Located}
    (h : Holds limit slots i l)
    (hsame : ∀ slot, slots[i.chunkSlotIdx]? = some slot → ∃ slot', slots'[i.chunkSlotIdx]? =
      some slot' ∧ slot'.buf = slot.buf ∧ slot'.dataStart = slot.dataStart) :
    Holds limit slots' i l := by
  obtain ⟨slot, hslot, hds, hread⟩ := h.slot
  obtain ⟨slot', hslot', hbuf, hds'⟩ := hsame slot hslot
  exact ⟨h.offset, h.logTime, slot', hslot', by rw [hds', hds], by rw [readMessage_congr hbuf, hread]⟩

/-! ## Chunks -/

/-- What the reader needs of a chunk to load it. -/
structure Loadable (C : Codecs) (file : Bytes) (limit : Option Nat) (c : Placed × ChunkIndex) :
    Prop where
  offset : ∃ off, c.2.compressedDataOffset = .ok off ∧ off.toNat = c.1.dataStart
  data : (file.drop c.1.dataStart).take c.2.compressedSize.toNat = c.1.compressed
  size : c.1.compressed.length = c.2.compressedSize.toNat
  within : checkLen c.2.compressedSize.toNat limit = some c.2.compressedSize.toNat
  decoded : decode C c.2.compression c.2.uncompressedSize.toNat c.1.compressed =
    .ok (frames c.1.records)
  records : RecordsOk limit c.1.records

variable {C : Codecs} {file : Bytes} {limit : Option Nat}

theorem findChunk_spec {waiting : List (Placed × ChunkIndex)} {i : Nat} {c : Placed × ChunkIndex}
    {off : UInt64} (hload : ∀ d ∈ waiting, Loadable C file limit d)
    (hdist : waiting.Pairwise fun c d => c.1.dataStart ≠ d.1.dataStart)
    (hc : waiting[i]? = some c) (hoff : c.2.compressedDataOffset = .ok off) :
    findChunk off (waiting.map Prod.snd) = .ok (some (i, c.2)) := by
  induction waiting generalizing i with
  | nil => cases hc
  | cons d waiting ih =>
    obtain ⟨off', hoff', hd⟩ := (hload d List.mem_cons_self).offset
    rw [List.map_cons, findChunk, hoff']
    cases i with
    | zero =>
      cases hc
      cases hoff'.symm.trans hoff
      simp
    | succ i =>
      obtain ⟨hall, hrest⟩ := List.pairwise_cons.mp hdist
      have hmem : c ∈ waiting := List.mem_of_getElem? hc
      obtain ⟨off₂, hoff₂, hds⟩ := (hload c (List.mem_cons_of_mem _ hmem)).offset
      cases hoff.symm.trans hoff₂
      have hne : off' ≠ off := by
        rintro rfl
        exact hall c hmem (hd.symm.trans hds)
      simp only [if_neg hne]
      rw [ih (fun d hd => hload d (List.mem_cons_of_mem _ hd)) hrest hc]

/-! ## The refinement -/

/-- The message indexes that have not been yielded. -/
def unread (r : IndexedReader) : List SlotIndex := r.messageIndexes.drop r.curMessageIndex

/-- **The reader is a merge of the chunks.** -/
structure Refines (C : Codecs) (file : Bytes) (order : ReadOrder) (filter : Filter)
    (limit : Option Nat) (r : IndexedReader) (st : Pending (Placed × ChunkIndex) Located) :
    Prop where
  order_eq : r.order = order
  filter_eq : r.filter = filter
  limit_eq : r.recordLengthLimit = limit
  waiting : r.uninserted = st.waiting.map Prod.snd
  loadable : ∀ c ∈ st.waiting, Loadable C file limit c
  distinct : st.waiting.Pairwise fun c d => c.1.dataStart ≠ d.1.dataStart
  ready : List.Forall₂ (Holds limit r.chunkSlots) r.unread st.ready
  counts : ∀ i slot, r.chunkSlots[i]? = some slot →
    slot.messageCount = r.unread.countP fun x => x.chunkSlotIdx = i

variable {order : ReadOrder} {filter : Filter} {r : IndexedReader}

/-- `yield_chunk_first` compares the bound of the chunk with the time of the
message. -/
theorem yieldChunkFirst_spec {c : Placed × ChunkIndex} {e : Located} (horder : r.order = order)
    (hc : Loadable C file limit c) (hi : Holds limit r.chunkSlots i e) :
    r.yieldChunkFirst c.2 i = .ok (decide (chunkBound order c < e.time order)) := by
  subst horder
  obtain ⟨off, hoff, hoffn⟩ := hc.offset
  obtain ⟨slot, hslot, hds, -⟩ := hi.slot
  rw [yieldChunkFirst]
  cases r.order with
  | logTime =>
    simp only [hi.logTime, chunkBound, Located.time, UInt64.lt_iff_toNat_lt]
    norm_cast
  | reverseLogTime =>
    simp only [hi.logTime, chunkBound, Located.time, gt_iff_lt, UInt64.lt_iff_toNat_lt]
    congr 2
    rw [eq_iff_iff]
    omega
  | file =>
    simp only [hslot, hoff, chunkBound, Located.time, UInt64.lt_iff_toNat_lt, hoffn, hds]
    norm_cast

theorem getElem?_cur {r : IndexedReader} {rest : List SlotIndex} (h : r.unread = i :: rest) :
    r.messageIndexes[r.curMessageIndex]? = some i ∧
      r.messageIndexes.drop (r.curMessageIndex + 1) = rest := by
  unfold unread at h
  constructor
  · have hget : (r.messageIndexes.drop r.curMessageIndex)[0]? = some i := by rw [h]; rfl
    rwa [List.getElem?_drop, Nat.add_zero] at hget
  · rw [← List.tail_drop, h]
    rfl

section
variable {accepts : MessageHeader → Bool} {e : Located} {ready : List Located}
  {waiting : List (Placed × ChunkIndex)} {c : Placed × ChunkIndex}

theorem yieldMessage_spec (h : Refines C file order filter limit r ⟨e :: ready, waiting⟩) :
    ∃ i r', r.messageIndexes[r.curMessageIndex]? = some i ∧ Holds limit r.chunkSlots i e ∧
      r.position = some (e.dataStart, e.offset) ∧
      yieldMessage i r = (.ok (some (.message e.header e.data)), r') ∧
      Refines C file order filter limit r' ⟨ready, waiting⟩ := by
  obtain ⟨i, rest, hi, hrest, hunread⟩ := List.forall₂_cons_right_iff.mp h.ready
  obtain ⟨hcur, hnext⟩ := getElem?_cur hunread
  obtain ⟨slot, hslot, hds, hread⟩ := hi.slot
  have hcount := h.counts _ slot hslot
  rw [hunread, List.countP_cons_of_pos (by simp)] at hcount
  refine ⟨i, { r with
      curMessageIndex := r.curMessageIndex + 1
      chunkSlots := r.chunkSlots.set i.chunkSlotIdx
        { slot with messageCount := slot.messageCount - 1 } },
    hcur, hi, ?_, ?_, ⟨h.order_eq, h.filter_eq, h.limit_eq, h.waiting, h.loadable,
    h.distinct, ?_, ?_⟩⟩
  · simp [position, hcur, hslot, hds, hi.offset]
  · rw [yieldMessage, hslot]
    simp only [h.limit_eq, hi.offset, hread]
    rw [if_neg (by omega)]
  · show List.Forall₂ _ (r.messageIndexes.drop (r.curMessageIndex + 1)) ready
    rw [hnext]
    refine hrest.imp fun j l hj => hj.of_slot fun slot' hslot' => ?_
    by_cases hij : i.chunkSlotIdx = j.chunkSlotIdx
    · rw [← hij] at hslot' ⊢
      cases hslot.symm.trans hslot'
      exact ⟨_, List.getElem?_set_self (List.getElem?_eq_some_iff.mp hslot).1, rfl, rfl⟩
    · exact ⟨slot', by rw [List.getElem?_set_ne hij, hslot'], rfl, rfl⟩
  · intro j slot' hslot'
    show slot'.messageCount = (r.messageIndexes.drop (r.curMessageIndex + 1)).countP _
    rw [hnext]
    by_cases hij : i.chunkSlotIdx = j
    · subst hij
      rw [List.getElem?_set_self (List.getElem?_eq_some_iff.mp hslot).1] at hslot'
      cases hslot'
      show slot.messageCount - 1 = _
      omega
    · rw [List.getElem?_set_ne hij] at hslot'
      have := h.counts j slot' hslot'
      rwa [hunread, List.countP_cons_of_neg (by simpa using hij)] at this

theorem getElem?_chunk (h : r.uninserted = waiting.map Prod.snd) :
    r.chunkIndexes[r.curChunkIndex]? = waiting.head?.map Prod.snd := by
  have hget : r.uninserted[0]? = r.chunkIndexes[r.curChunkIndex]? := by
    rw [uninserted, List.getElem?_drop, Nat.add_zero]
  rw [← hget, h]
  cases waiting <;> rfl

/-- **A message is yielded** unless a chunk has to be loaded first. -/
theorem next_yield (h : Refines C file order filter limit r ⟨e :: ready, waiting⟩)
    (hf : ¬ (merge order accepts).LoadFirst waiting e) :
    r.position = some (e.dataStart, e.offset) ∧
      ∃ r', r.nextEvent = (.ok (some (.message e.header e.data)), r') ∧
        Refines C file order filter limit r' ⟨ready, waiting⟩ := by
  obtain ⟨i, r', hcur, hi, hpos, hyield, hr'⟩ := yieldMessage_spec h
  refine ⟨hpos, r', ?_, hr'⟩
  rw [nextEvent, hcur]
  simp only [getElem?_chunk h.waiting]
  cases waiting with
  | nil => exact hyield
  | cons c waiting =>
    have hc : ¬ chunkBound order c < e.time order := fun hlt => hf ⟨c, rfl, hlt⟩
    simp only [List.head?_cons, Option.map_some,
      yieldChunkFirst_spec h.order_eq (h.loadable c List.mem_cons_self) hi, hc, decide_false]
    exact hyield

/-- **A chunk is requested** if the first waiting one has to be loaded. -/
theorem next_load (h : Refines C file order filter limit r ⟨ready, c :: waiting⟩)
    (hf : ∀ e ∈ ready.head?, (merge order accepts).LoadFirst (c :: waiting) e) :
    ∃ off, c.2.compressedDataOffset = .ok off ∧
      r.nextEvent = (.ok (some (.readChunkRequest off c.2.compressedSize.toNat)), r) := by
  have hload := h.loadable c List.mem_cons_self
  obtain ⟨off, hoff, -⟩ := hload.offset
  refine ⟨off, hoff, ?_⟩
  have hrequest : chunkRequest c.2 r.recordLengthLimit =
      .ok (some (.readChunkRequest off c.2.compressedSize.toNat)) := by
    rw [chunkRequest, h.limit_eq, hload.within]
    simp only [hoff]
  rw [nextEvent]
  simp only [getElem?_chunk h.waiting, List.head?_cons, Option.map_some]
  cases ready with
  | nil =>
    have hnone : r.messageIndexes[r.curMessageIndex]? = none := by
      have hnil : r.unread = [] := List.forall₂_nil_right_iff.mp h.ready
      exact List.getElem?_eq_none (List.drop_eq_nil_iff.mp hnil)
    simp only [hnone, hrequest]
  | cons e ready =>
    obtain ⟨i, rest, hi, -, hunread⟩ := List.forall₂_cons_right_iff.mp h.ready
    obtain ⟨c', hc', hlt⟩ := hf e rfl
    cases hc'
    have hlt : chunkBound order c < e.time order := hlt
    simp only [(getElem?_cur hunread).1, yieldChunkFirst_spec h.order_eq hload hi, hlt,
      decide_true, hrequest]

/-- **The reader ends** when nothing is ready and no chunk waits. -/
theorem next_done (h : Refines C file order filter limit r ⟨[], []⟩) :
    r.nextEvent = (.ok none, r) := by
  have hnil : r.unread = [] := List.forall₂_nil_right_iff.mp h.ready
  have hnone : r.messageIndexes[r.curMessageIndex]? = none :=
    List.getElem?_eq_none (List.drop_eq_nil_iff.mp hnil)
  rw [nextEvent, hnone]
  simp only [getElem?_chunk h.waiting, List.head?_nil, Option.map_none]

/-! ## Insertion -/

theorem drop_eraseIdx {α : Type} (l : List α) (cur i : Nat) :
    (l.eraseIdx (cur + i)).drop cur = (l.drop cur).eraseIdx i := by
  induction cur generalizing l with
  | zero => simp
  | succ cur ih =>
    cases l with
    | nil => simp
    | cons x l =>
      rw [Nat.succ_add, List.eraseIdx_cons_succ, List.drop_succ_cons, List.drop_succ_cons, ih]

theorem exists_of_forall₂ {α β : Type} {R : α → β → Prop} {xs : List α} {ys : List β}
    (h : List.Forall₂ R xs ys) {x : α} (hx : x ∈ xs) : ∃ y, R x y := by
  induction h with
  | nil => cases hx
  | cons hxy _ ih =>
    rcases List.mem_cons.mp hx with rfl | hx
    · exact ⟨_, hxy⟩
    · exact ih hx

theorem indexChunk_spec {i slotIdx : Nat} {slots : List ChunkSlot} {off : UInt64}
    (h : Refines C file order filter limit r ⟨ready, waiting⟩) (hc : waiting[i]? = some c)
    (hoff : off.toNat = c.1.dataStart) (hslot : slots[slotIdx]? =
      some { buf := frames c.1.records, dataStart := off, messageCount := 0 })
    (hother : ∀ j, j ≠ slotIdx → slots[j]? = r.chunkSlots[j]?)
    (hfree : ∀ slot, r.chunkSlots[slotIdx]? = some slot → slot.messageCount = 0) :
    ∃ r' ready', indexChunk i slotIdx (frames c.1.records) { r with chunkSlots := slots } =
        (.ok (), r') ∧
      ready'.Perm (ready ++ (merge order (Filter.accepts filter)).entries c) ∧
      (ready'.Pairwise fun a b => a.key order ≤ b.key order) ∧
      Refines C file order filter limit r' ⟨ready', waiting.eraseIdx i⟩ := by
  have hload := h.loadable c (List.mem_of_getElem? hc)
  -- the slot was free, so no unread message is in it
  have hnone : ∀ j ∈ r.unread, j.chunkSlotIdx ≠ slotIdx := by
    intro j hj hidx
    obtain ⟨l, hl⟩ := exists_of_forall₂ h.ready hj
    obtain ⟨slot, hslot, -⟩ := hl.slot
    rw [hidx] at hslot
    have hcount := h.counts _ slot hslot
    rw [hfree slot hslot] at hcount
    exact absurd (List.countP_eq_zero.mp hcount.symm j hj) (by simpa using hidx)
  have hready : List.Forall₂ (Holds limit slots) r.unread ready := by
    refine ((List.forall₂_and_left _ _).mpr ⟨hnone, h.ready⟩).imp fun j l hj => ?_
    exact hj.2.of_slot fun slot hslot => ⟨slot, by rw [hother _ hj.1, hslot], rfl, rfl⟩
  -- the array is cleared if all of it has been yielded
  obtain ⟨cur, hcur⟩ : ∃ cur, cur =
      if r.curMessageIndex ≥ r.messageIndexes.length then 0 else r.curMessageIndex := ⟨_, rfl⟩
  obtain ⟨indexes, hindexes⟩ : ∃ indexes, indexes =
      if r.curMessageIndex ≥ r.messageIndexes.length then [] else r.messageIndexes := ⟨_, rfl⟩
  have hunread : indexes.drop cur = r.unread := by
    rw [hcur, hindexes, unread]
    split
    · rename_i hle
      rw [List.drop_nil, List.drop_eq_nil_of_le hle]
    · rfl
  have hbound : cur < indexes.length ∨ indexes = [] ∧ cur = 0 := by
    rw [hcur, hindexes]
    split
    · exact .inr ⟨rfl, rfl⟩
    · exact .inl (by omega)
  obtain ⟨new, hnew⟩ : ∃ new, new = (merge order (Filter.accepts filter)).entries c := ⟨_, rfl⟩
  have hholds : ∀ l ∈ new, Holds limit slots (slotIndex slotIdx l) l := by
    intro l hl
    rw [hnew] at hl
    have hmem : l ∈ c.1.messages := List.mem_of_mem_filter hl
    refine ⟨rfl, rfl, _, hslot, by rw [hoff, (locate_dataStart hmem).1], ?_⟩
    exact readMessage_of_locate [] [] (fun r hr => hload.records.readable hr) hmem
      (List.append_nil _).symm
  obtain ⟨out, ready', hrun, hle, hperm, hp, hs, hout⟩ :=
    indexMessages_spec order hload.records hnew hholds (by rw [hunread]; exact hready)
      hbound
  obtain ⟨r', hr'⟩ : ∃ r' : IndexedReader, r' = { r with
      chunkSlots := slots.modify slotIdx fun slot => { slot with messageCount := new.length }
      messageIndexes := if new.length < cur then out.drop cur else out
      curMessageIndex := if new.length < cur then 0 else cur
      curChunkIndex := if i = 0 then r.curChunkIndex + 1 else r.curChunkIndex
      chunkIndexes :=
        if i = 0 then r.chunkIndexes else r.chunkIndexes.eraseIdx (r.curChunkIndex + i) } := ⟨_, rfl⟩
  have hunread' : r'.unread = out.drop cur := by
    rw [hr', unread]
    dsimp only
    split
    · rfl
    · rfl
  refine ⟨r', ready', ?_, hnew ▸ hp, hs, ?_⟩
  · rw [indexChunk]
    simp only [h.order_eq, h.filter_eq, h.limit_eq, ← hcur, ← hindexes, hrun, hr']
  · refine ⟨by rw [hr']; exact h.order_eq, by rw [hr']; exact h.filter_eq,
      by rw [hr']; exact h.limit_eq, ?_, fun d hd => h.loadable d (List.mem_of_mem_eraseIdx hd),
      h.distinct.sublist (List.eraseIdx_sublist ..), ?_, ?_⟩
    · have hw : r.chunkIndexes.drop r.curChunkIndex = waiting.map Prod.snd := h.waiting
      rw [hr', uninserted, ← List.eraseIdx_map, ← hw]
      by_cases hi : i = 0
      · simp only [if_pos hi]
        rw [hi, List.eraseIdx_zero, List.tail_drop]
      · simp only [if_neg hi]
        exact drop_eraseIdx _ _ _
    · rw [hunread']
      refine hout.imp fun j l hj => hj.of_slot fun slot hslot => ?_
      rw [hr']
      refine ⟨_, by simp only [List.getElem?_modify, hslot]; rfl, ?_, ?_⟩
      · split <;> rfl
      · split <;> rfl
    · intro j slot hj
      rw [hr', List.getElem?_modify] at hj
      rw [hunread', hperm.countP_eq, List.countP_append, hunread, List.countP_map]
      by_cases hij : slotIdx = j
      · subst hij
        rw [hslot] at hj
        have hslotn : slot.messageCount = new.length := by
          simp only [Option.map_eq_map, Option.map_some, if_true, Option.some.injEq] at hj
          rw [← hj]
        have hzero : r.unread.countP (fun x => x.chunkSlotIdx = slotIdx) = 0 :=
          List.countP_eq_zero.mpr fun x hx => by simpa using hnone x hx
        have hall : new.countP ((fun x => decide (x.chunkSlotIdx = slotIdx)) ∘ slotIndex slotIdx) =
            new.length := List.countP_eq_length.mpr fun x _ => by simp [slotIndex]
        rw [hzero, hall, hslotn, Nat.zero_add]
      · have hj' : r.chunkSlots[j]? = some slot := by
          rw [← hother j (Ne.symm hij)]
          simpa [hij] using hj
        have hzero : new.countP ((fun x => decide (x.chunkSlotIdx = j)) ∘ slotIndex slotIdx) = 0 :=
          List.countP_eq_zero.mpr fun x _ => by simp [slotIndex, hij]
        rw [h.counts j slot hj', hzero, Nat.add_zero]

/-- **Inserting a waiting chunk** makes its messages ready. -/
theorem insert_spec {i : Nat} {off : UInt64}
    (h : Refines C file order filter limit r ⟨ready, waiting⟩) (hc : waiting[i]? = some c)
    (hoff : c.2.compressedDataOffset = .ok off) :
    ∃ r' ready', r.insertAnswer C file (off, c.2.compressedSize.toNat) = (.ok (), r') ∧
      ready'.Perm (ready ++ (merge order (Filter.accepts filter)).entries c) ∧
      (ready'.Pairwise fun a b => a.key order ≤ b.key order) ∧
      Refines C file order filter limit r' ⟨ready', waiting.eraseIdx i⟩ := by
  have hload := h.loadable c (List.mem_of_getElem? hc)
  obtain ⟨off', hoff', hoffn⟩ := hload.offset
  cases hoff.symm.trans hoff'
  obtain ⟨slotIdx, slots, hfind, hslot, hother, hfree⟩ :=
    findOrMakeChunkSlot_spec off r.chunkSlots
  have hslot' : (slots.modify slotIdx fun slot => { slot with buf := frames c.1.records })[slotIdx]? =
      some { buf := frames c.1.records, dataStart := off, messageCount := 0 } := by
    simp [hslot]
  obtain ⟨r', ready', hrun, hp, hs, hr'⟩ := indexChunk_spec h hc hoffn hslot'
    (fun j hj => by rw [← hother j hj]; simp [Ne.symm hj]) hfree
  refine ⟨r', ready', ?_, hp, hs, hr'⟩
  have hsearch := findChunk_spec h.loadable h.distinct hc hoff
  rw [insertAnswer, insertChunkRecordData]
  rw [show List.drop r.curChunkIndex r.chunkIndexes = waiting.map Prod.snd from h.waiting, hsearch]
  simp only [hoffn, hload.data, hload.size, ne_eq, not_true_eq_false, if_false, hfind,
    hload.decoded]
  exact hrun

end

/-! ## Whole runs -/

/-- **The reader delivers what the merge delivers**, if every answer is a waiting
chunk at a position where the merge may load one. -/
theorem delivers_of_merge (may : Nat → Prop) {answers : Answers}
    (hmay : ∀ {c : Placed × ChunkIndex} {waiting : List (Placed × ChunkIndex)} {off : UInt64}
      {answer : UInt64 × Nat}, c.2.compressedDataOffset = .ok off →
      answers (off, c.2.compressedSize.toNat) ((c :: waiting).map Prod.snd) answer →
      ∃ i d, may i ∧ (c :: waiting)[i]? = some d ∧ d.2.compressedDataOffset = .ok answer.1 ∧
        answer.2 = d.2.compressedSize.toNat)
    {st : Pending (Placed × ChunkIndex) Located} {P : List Located → Prop}
    (h : (merge order (Filter.accepts filter)).Delivers may st P)
    (hr : Refines C file order filter limit r st) : Delivers C file answers r P := by
  induction h generalizing r with
  | yield hf _ ih =>
    obtain ⟨hpos, r', hnext, hr'⟩ := next_yield hr hf
    exact .message hpos hnext (ih hr')
  | @load ready waiting P hne hf _ ih =>
    obtain ⟨c, waiting, rfl⟩ := List.exists_cons_of_ne_nil hne
    obtain ⟨off, hoff, hnext⟩ := next_load hr hf
    have hanswer : ∀ answer, answers (off, c.2.compressedSize.toNat) r.uninserted answer →
        ∃ r'', r.insertAnswer C file answer = (.ok (), r'') ∧ Delivers C file answers r'' P := by
      intro answer ha
      rw [hr.waiting] at ha
      obtain ⟨i, d, hi, hd, hdoff, hlen⟩ := hmay hoff ha
      obtain ⟨r'', ready', hinsert, hp, hs, hr''⟩ := insert_spec hr hd hdoff
      exact ⟨r'', by rw [← hinsert, ← hlen], ih i d ready' hi hd hp hs hr''⟩
    refine .request hnext (fun answer ha => ?_) fun answer r'' ha hinsert => ?_
    · obtain ⟨r'', hr'', -⟩ := hanswer answer ha
      exact ⟨r'', hr''⟩
    · obtain ⟨r₂, hr₂, hd⟩ := hanswer answer ha
      cases hr₂.symm.trans hinsert
      exact hd
  | done hP => exact .done (next_done hr) hP

end IndexedReader
end Mcap

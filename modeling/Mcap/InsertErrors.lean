import Mcap.IndexedRuns

/-! # Insertions that fail

`insert_chunk_record_data` takes a slot before it knows that the data can be used.  An
error that comes before the first message is indexed leaves no trace that a later call
could see: the slot was free, and stays free.  `Agree` is that relation between readers,
and every call keeps it (`agree_run`).

An error in the middle of a chunk is different.  The indexes of the messages before it
stay in the array, in a slot that counts no messages.  `Call.Clean` excludes exactly that:
no message that passes the filter stands before the malformed record.
-/
namespace Mcap
namespace IndexedReader

/-- A call on a reader. -/
inductive Call
  | next
  | insert (offset : UInt64) (data : Bytes)

/-- The method a call names. -/
def Call.run (C : Codecs) : Call → Exec IndexedReader McapError (Option IndexedReadEvent)
  | next => nextEvent
  | insert offset data => do
      insertChunkRecordData C offset data
      pure none

/-- What a sequence of calls returns. -/
def events (C : Codecs) : List Call → IndexedReader → List (Res McapError (Option IndexedReadEvent))
  | [], _ => []
  | call :: calls, r => (call.run C r).1 :: events C calls (call.run C r).2

/-! ## The array of indexes -/

theorem locate_cons (ds off : Nat) (record : UInt8 × Bytes) (records : List (UInt8 × Bytes)) :
    locate ds off (record :: records) =
      locate ds off [record] ++ locate ds (off + 9 + record.2.length) records := by
  obtain ⟨opcode, body⟩ := record
  simp only [locate]
  split
  · split <;> rfl
  · rfl

section
variable {slotIdx : Nat} {order : ReadOrder} {filter : Filter} {limit : Option Nat}

theorem scan_append (fuel off : Nat) (buf : Bytes) (flag : Bool) (latest : UInt64)
    (old new : List SlotIndex) :
    scan slotIdx order filter limit fuel off buf ⟨flag, latest, old ++ new⟩ =
      ((scan slotIdx order filter limit fuel off buf ⟨flag, latest, new⟩).1,
        { (scan slotIdx order filter limit fuel off buf ⟨flag, latest, new⟩).2 with
          messageIndexes := old ++
            (scan slotIdx order filter limit fuel off buf ⟨flag, latest, new⟩).2.messageIndexes }) := by
  induction fuel generalizing off buf flag latest new with
  | zero => rfl
  | succ fuel ih =>
    simp only [scan]
    by_cases hnil : buf = []
    · simp only [if_pos hnil]
    · simp only [if_neg hnil]
      rcases splitRecord buf with e | ⟨opcode, len, rest⟩
      · rfl
      · simp only
        rcases checkLen len limit with _ | len'
        · rfl
        · simp only
          by_cases hshort : rest.length < len'
          · simp only [if_pos hshort]
          · simp only [if_neg hshort]
            by_cases hop : opcode ≠ op.MESSAGE
            · simp only [if_pos hop, ih]
            · simp only [if_neg hop]
              rcases readLeFrom MessageHeader.read (rest.take len') with e | ⟨msg, c⟩
              · rfl
              · simp only [List.append_assoc]
                split
                · exact ih ..
                · exact ih ..

/-- The first record of the buffer cannot be read. -/
def Malformed (limit : Option Nat) (buf : Bytes) : Prop :=
  buf ≠ [] ∧ ∀ opcode body rest, buf = frame opcode body ++ rest → ¬ Readable limit (opcode, body)

theorem splitRecord_eq_ok {buf rest : Bytes} {opcode : UInt8} {len : Nat}
    (h : splitRecord buf = .ok (opcode, len, rest)) :
    buf = opcode :: (le 8 len ++ rest) ∧ len < 2 ^ 64 := by
  cases buf with
  | nil => cases h
  | cons first buf =>
    rw [splitRecord] at h
    split at h
    · cases h
    · rename_i hlen
      cases h
      have htake : (buf.take 8).length = 8 := by
        rw [List.length_take]
        omega
      have hle := le_ofLe (buf.take 8)
      rw [htake] at hle
      refine ⟨by rw [hle, List.take_append_drop], ?_⟩
      have hlt := ofLe_lt (buf.take 8)
      rw [htake] at hlt
      exact hlt

theorem malformed_of_splitRecord {buf : Bytes} (hnil : buf ≠ [])
    (h : ∀ opcode body rest, splitRecord buf = .ok (opcode, body.length, body ++ rest) →
      ¬ Readable limit (opcode, body)) : Malformed limit buf := by
  refine ⟨hnil, fun opcode body rest heq hread => ?_⟩
  refine h opcode body rest ?_ hread
  rw [heq]
  exact splitRecord_frame opcode rest hread.size

/-- **The loop over arbitrary bytes**: it goes over the records that can be read, pushes
an index for each message among them that passes the filter, and fails exactly if a
malformed record follows. -/
theorem scan_records (ds fuel off : Nat) {buf : Bytes} (hfuel : buf.length ≤ fuel) (s : Scan) :
    ∃ records tail, buf = frames records ++ tail ∧ (∀ record ∈ records, Readable limit record) ∧
      (scan slotIdx order filter limit fuel off buf s).2.messageIndexes = s.messageIndexes ++
        ((locate ds off records).filter fun l => Filter.accepts filter l.header).map
          (slotIndex slotIdx) ∧
      (∀ e, (scan slotIdx order filter limit fuel off buf s).1 = .error e → Malformed limit tail) := by
  induction fuel generalizing off buf s with
  | zero =>
    have hnil : buf = [] := List.length_eq_zero_iff.mp (Nat.le_zero.mp hfuel)
    exact ⟨[], [], hnil, by simp, by simp [locate, scan], fun e he => by simp [scan] at he⟩
  | succ fuel ih =>
    rw [scan]
    by_cases hnil : buf = []
    · rw [if_pos hnil]
      exact ⟨[], [], hnil, by simp, by simp [locate], fun e he => by cases he⟩
    · rw [if_neg hnil]
      -- the loop stops at this record
      have hstop : ∀ e, (∀ opcode body rest,
          splitRecord buf = .ok (opcode, body.length, body ++ rest) →
          ¬ Readable limit (opcode, body)) →
          ∃ records tail, buf = frames records ++ tail ∧
            (∀ record ∈ records, Readable limit record) ∧
            ((.error e, s) : Except McapError Unit × Scan).2.messageIndexes = s.messageIndexes ++
              ((locate ds off records).filter fun l => Filter.accepts filter l.header).map
                (slotIndex slotIdx) ∧
            (∀ e', ((.error e, s) : Except McapError Unit × Scan).1 = .error e' →
              Malformed limit tail) := by
        intro e hbad
        exact ⟨[], buf, rfl, by simp, by simp [locate], fun _ _ => malformed_of_splitRecord hnil hbad⟩
      cases hsplit : splitRecord buf with
      | error e =>
        exact hstop e fun opcode body rest h => by rw [hsplit] at h; cases h
      | ok parts =>
        obtain ⟨opcode, len, buf'⟩ := parts
        simp only
        cases hcheck : checkLen len limit with
        | none =>
          refine hstop _ fun opcode' body rest h hread => ?_
          rw [hsplit] at h
          cases h
          rw [hread.limit] at hcheck
          cases hcheck
        | some len' =>
          obtain rfl := checkLen_eq hcheck
          simp only
          by_cases hshort : buf'.length < len'
          · rw [if_pos hshort]
            refine hstop _ fun opcode' body rest h _ => ?_
            rw [hsplit] at h
            cases h
            rw [List.length_append] at hshort
            omega
          · rw [if_neg hshort]
            -- the record is whole; the loop goes on after it, or stops at its header
            obtain ⟨hbuf, hlt⟩ := splitRecord_eq_ok hsplit
            have hbody : (buf'.take len').length = len' := by
              rw [List.length_take]
              omega
            have hsize : (buf'.take len').length < 2 ^ 64 := by omega
            have hlimit : checkLen (buf'.take len').length limit = some (buf'.take len').length := by
              rw [hbody]
              exact hcheck
            have hframe : buf = frame opcode (buf'.take len') ++ buf'.drop len' := by
              rw [hbuf, frame, hbody, List.cons_append, List.append_assoc, List.take_append_drop]
            have hfuel' : (buf'.drop len').length ≤ fuel := by
              have := congrArg List.length hbuf
              rw [List.length_cons, List.length_append, length_le] at this
              rw [List.length_drop]
              omega
            have hgo : ∀ (s' : Scan), Readable limit (opcode, buf'.take len') →
                s'.messageIndexes = s.messageIndexes ++
                  ((locate ds off [(opcode, buf'.take len')]).filter fun l =>
                    Filter.accepts filter l.header).map (slotIndex slotIdx) →
                ∃ records tail, buf = frames records ++ tail ∧
                  (∀ record ∈ records, Readable limit record) ∧
                  (scan slotIdx order filter limit fuel (off + 9 + len') (buf'.drop len')
                    s').2.messageIndexes = s.messageIndexes ++
                    ((locate ds off records).filter fun l => Filter.accepts filter l.header).map
                      (slotIndex slotIdx) ∧
                  (∀ e, (scan slotIdx order filter limit fuel (off + 9 + len') (buf'.drop len')
                    s').1 = .error e → Malformed limit tail) := by
              intro s' hread hs'
              obtain ⟨records, tail, hrest, hall, hidx, herr⟩ := ih (off + 9 + len') hfuel' s'
              refine ⟨(opcode, buf'.take len') :: records, tail, ?_, ?_, ?_, herr⟩
              · rw [frames_cons, List.append_assoc, ← hrest, ← hframe]
              · rintro record hr
                rcases List.mem_cons.mp hr with rfl | hr
                · exact hread
                · exact hall record hr
              · rw [hidx, hs', locate_cons ds off (opcode, buf'.take len') records, hbody,
                  List.filter_append, List.map_append, List.append_assoc]
            by_cases hop : opcode ≠ op.MESSAGE
            · rw [if_pos hop]
              refine hgo s ⟨hsize, hlimit, fun h => absurd h hop⟩ ?_
              simp [locate, hop]
            · rw [if_neg hop]
              have hop' : opcode = op.MESSAGE := not_not.mp hop
              cases hread : readLeFrom MessageHeader.read (buf'.take len') with
              | error e =>
                refine hstop e fun opcode' body rest h hreadable => ?_
                rw [hsplit] at h
                obtain ⟨hop₁, hlen₁, hbody₁⟩ : opcode = opcode' ∧ len' = body.length ∧
                    buf' = body ++ rest := by simpa using h
                have hb : buf'.take len' = body := by rw [hlen₁, hbody₁, List.take_left]
                rw [hb] at hread
                have hr : Readable limit (op.MESSAGE, body) := by
                  rw [← hop', hop₁]
                  exact hreadable
                obtain ⟨header, c, hok⟩ := hr.message
                rw [hok] at hread
                cases hread
              | ok parsed =>
                obtain ⟨msg, c⟩ := parsed
                have h22 : 22 ≤ (buf'.take len').length := by
                  by_contra hlt22
                  obtain ⟨e, he⟩ :=
                    (readLeFrom_takes MessageHeader.takes_read (buf'.take len')).1 (by omega)
                  rw [he] at hread
                  cases hread
                have hr : Readable limit (opcode, buf'.take len') :=
                  ⟨hsize, hlimit, fun _ => h22⟩
                simp only
                by_cases hacc : Filter.accepts filter msg = true
                · rw [if_pos hacc]
                  refine hgo _ hr ?_
                  simp [locate, hop', hread, hacc, slotIndex]
                · rw [if_neg hacc]
                  refine hgo _ hr ?_
                  simp [locate, hop', hread, hacc]

/-- The loop over a chunk, on an empty array; `more` tells whether there are unread
indexes. -/
def scanChunk (slotIdx : Nat) (order : ReadOrder) (filter : Filter) (limit : Option Nat)
    (more : Bool) (buf : Bytes) : Except McapError Unit × Scan :=
  scan slotIdx order filter limit buf.length 0 buf ⟨more, 0, []⟩

/-- The indexes of the messages among the records that pass the filter. -/
def selectedIndexes (slotIdx : Nat) (filter : Filter) (records : List (UInt8 × Bytes)) :
    List SlotIndex :=
  ((locate 0 0 records).filter fun l => Filter.accepts filter l.header).map (slotIndex slotIdx)

theorem slotIdx_of_selected {records : List (UInt8 × Bytes)} {i : SlotIndex}
    (h : i ∈ selectedIndexes slotIdx filter records) : i.chunkSlotIdx = slotIdx := by
  obtain ⟨l, -, rfl⟩ := List.mem_map.mp h
  rfl

theorem scanChunk_records (slotIdx : Nat) (order : ReadOrder) (filter : Filter)
    (limit : Option Nat) (more : Bool) (buf : Bytes) :
    ∃ records tail, buf = frames records ++ tail ∧ (∀ record ∈ records, Readable limit record) ∧
      (scanChunk slotIdx order filter limit more buf).2.messageIndexes =
        selectedIndexes slotIdx filter records ∧
      (∀ e, (scanChunk slotIdx order filter limit more buf).1 = .error e → Malformed limit tail) := by
  obtain ⟨records, tail, hbuf, hall, hidx, herr⟩ := @scan_records slotIdx order filter limit
    0 buf.length 0 buf (Nat.le_refl _) ⟨more, 0, []⟩
  exact ⟨records, tail, hbuf, hall, by rw [scanChunk, hidx]; rfl, herr⟩

end

/-- The unread indexes, once a chunk has been indexed. -/
def merged (order : ReadOrder) (slots : List ChunkSlot) (unread : List SlotIndex) (s : Scan) :
    List SlotIndex :=
  let all := unread ++ reverseNew order 0 s.messageIndexes
  if s.sortingRequired then sortUnread order slots all else all

theorem reverseNew_append (order : ReadOrder) (old new : List SlotIndex) :
    reverseNew order old.length (old ++ new) = old ++ reverseNew order 0 new := by
  cases order with
  | reverseLogTime => simp [reverseNew]
  | logTime => rfl
  | file => rfl

theorem length_reverseNew (order : ReadOrder) (start : Nat) (l : List SlotIndex) :
    (reverseNew order start l).length = l.length := by
  cases order with
  | reverseLogTime => simp [reverseNew]; omega
  | logTime => rfl
  | file => rfl

theorem sortUnread_perm (order : ReadOrder) (slots : List ChunkSlot) (l : List SlotIndex) :
    (sortUnread order slots l).Perm l := by
  cases order <;> exact List.perm_insertionSort _ _

theorem indexMessages_eq {slotIdx : Nat} {slots : List ChunkSlot} {buf : Bytes} {order : ReadOrder}
    {filter : Filter} {indexes : List SlotIndex} {cur : Nat} {limit : Option Nat}
    (hcur : cur ≤ indexes.length) (hmore : indexes.isEmpty = (indexes.drop cur).isEmpty) :
    ∃ out, indexMessages slotIdx slots buf order filter indexes cur limit =
        ((scanChunk slotIdx order filter limit (!(indexes.drop cur).isEmpty) buf).1.map fun _ =>
          (scanChunk slotIdx order filter limit
            (!(indexes.drop cur).isEmpty) buf).2.messageIndexes.length, out) ∧
      out.drop cur =
        match (scanChunk slotIdx order filter limit (!(indexes.drop cur).isEmpty) buf).1 with
        | .ok _ => merged order slots (indexes.drop cur)
            (scanChunk slotIdx order filter limit (!(indexes.drop cur).isEmpty) buf).2
        | .error _ => indexes.drop cur ++ (scanChunk slotIdx order filter limit
            (!(indexes.drop cur).isEmpty) buf).2.messageIndexes := by
  have hscan := @scan_append slotIdx order filter limit buf.length 0 buf
    (!(indexes.drop cur).isEmpty) 0 indexes []
  rw [List.append_nil] at hscan
  rw [← scanChunk] at hscan
  rw [indexMessages, hmore]
  simp only [hscan]
  rcases hs : scanChunk slotIdx order filter limit (!(indexes.drop cur).isEmpty) buf with ⟨e | _, s⟩
  · exact ⟨_, rfl, by simp [List.drop_append_of_le_length hcur]⟩
  · simp only [reverseNew_append]
    refine ⟨_, Prod.ext (congrArg Except.ok ?_) rfl, ?_⟩
    · show List.length (if s.sortingRequired then _ else _) - indexes.length =
        s.messageIndexes.length
      split
      · rw [List.length_append, (sortUnread_perm ..).length_eq, ← List.length_append,
          List.take_append_drop, List.length_append, length_reverseNew]
        omega
      · rw [List.length_append, length_reverseNew]
        omega
    · show List.drop cur (if s.sortingRequired then _ else _) = merged _ _ _ _
      rw [merged]
      split
      · rw [List.drop_left' (by simp; omega), List.drop_append_of_le_length hcur]
      · rw [List.drop_append_of_le_length hcur]

/-- **The chunk in a slot is indexed**, as far as the unread indexes, the waiting chunks
and the slots go. -/
theorem indexChunk_eq (i slotIdx : Nat) (buf : Bytes) (r : IndexedReader) :
    ∃ r', indexChunk i slotIdx buf r =
        (match (scanChunk slotIdx r.order r.filter r.recordLengthLimit
            (!r.unread.isEmpty) buf).1 with
          | .ok _ => .ok ()
          | .error e => .err e, r') ∧
      r'.order = r.order ∧ r'.filter = r.filter ∧ r'.recordLengthLimit = r.recordLengthLimit ∧
      match scanChunk slotIdx r.order r.filter r.recordLengthLimit (!r.unread.isEmpty) buf with
      | (.ok _, s) =>
          r'.unread = merged r.order r.chunkSlots r.unread s ∧
          r'.chunkSlots = r.chunkSlots.modify slotIdx
            (fun slot => { slot with messageCount := s.messageIndexes.length }) ∧
          r'.uninserted = r.uninserted.eraseIdx i
      | (.error _, s) =>
          r'.unread = r.unread ++ s.messageIndexes ∧ r'.chunkSlots = r.chunkSlots ∧
            r'.uninserted = r.uninserted := by
  -- the array is cleared if all of it has been yielded
  obtain ⟨cur, hcur⟩ : ∃ cur, cur =
      if r.curMessageIndex ≥ r.messageIndexes.length then 0 else r.curMessageIndex := ⟨_, rfl⟩
  obtain ⟨indexes, hindexes⟩ : ∃ indexes, indexes =
      if r.curMessageIndex ≥ r.messageIndexes.length then [] else r.messageIndexes := ⟨_, rfl⟩
  have hunread : indexes.drop cur = r.unread := by
    rw [hcur, hindexes, unread]
    split
    · rename_i hle
      rw [List.drop_nil, List.drop_eq_nil_of_le hle]
    · rfl
  have hle : cur ≤ indexes.length := by
    rw [hcur, hindexes]
    split
    · exact Nat.le_refl _
    · omega
  have hmore : indexes.isEmpty = (indexes.drop cur).isEmpty := by
    rw [hcur, hindexes]
    split
    · rfl
    · rw [Bool.eq_iff_iff]
      simp only [List.isEmpty_iff, List.drop_eq_nil_iff]
      rw [← List.length_eq_zero_iff]
      omega
  obtain ⟨out, hrun, hout⟩ := @indexMessages_eq slotIdx r.chunkSlots buf r.order r.filter
    indexes cur r.recordLengthLimit hle hmore
  rw [hunread] at hrun hout
  rw [indexChunk]
  rcases hs : scanChunk slotIdx r.order r.filter r.recordLengthLimit (!r.unread.isEmpty) buf with
    ⟨e | _, s⟩ <;> rw [hs] at hrun hout <;> simp only [← hcur, ← hindexes, hrun]
  · exact ⟨_, rfl, rfl, rfl, rfl, hout, rfl, rfl⟩
  · refine ⟨_, rfl, rfl, rfl, rfl, ?_, rfl, ?_⟩
    · rw [unread]
      refine Eq.trans ?_ hout
      dsimp only
      split <;> rfl
    · rw [uninserted, uninserted]
      by_cases hi : i = 0
      · simp only [if_pos hi]
        rw [hi, List.eraseIdx_zero, List.tail_drop]
      · simp only [if_neg hi]
        exact drop_eraseIdx _ _ _

/-! ## Readers that cannot be told apart -/

/-- The slot can be taken, and no unread index points to it. -/
structure Unused (r : IndexedReader) (k : Nat) : Prop where
  free : ∀ slot, r.chunkSlots[k]? = some slot → slot.messageCount = 0
  unread : ∀ i ∈ r.unread, i.chunkSlotIdx ≠ k

/-- **Two readers that differ in nothing but unused slots** and what they have yielded. -/
structure Agree (r s : IndexedReader) : Prop where
  order : r.order = s.order
  filter : r.filter = s.filter
  limit : r.recordLengthLimit = s.recordLengthLimit
  waiting : r.uninserted = s.uninserted
  unread : r.unread = s.unread
  slots : ∀ k, r.chunkSlots[k]? = s.chunkSlots[k]? ∨ (r.Unused k ∧ s.Unused k)

variable {r s : IndexedReader} {i : SlotIndex} {k : Nat} {e : McapError} {C : Codecs}

theorem Agree.slot (h : Agree r s) (hi : i ∈ r.unread) :
    r.chunkSlots[i.chunkSlotIdx]? = s.chunkSlots[i.chunkSlotIdx]? := by
  rcases h.slots i.chunkSlotIdx with heq | ⟨hr, -⟩
  · exact heq
  · exact absurd rfl (hr.unread i hi)

theorem Unused.of_tail (h : r.Unused k) {r' : IndexedReader}
    (hslot : r'.chunkSlots[k]? = r.chunkSlots[k]?) (hunread : ∀ i ∈ r'.unread, i ∈ r.unread) :
    r'.Unused k :=
  ⟨fun slot hs => h.free slot (hslot.symm.trans hs), fun i hi => h.unread i (hunread i hi)⟩

/-! ## Events -/

theorem head?_unread (r : IndexedReader) : r.messageIndexes[r.curMessageIndex]? = r.unread.head? := by
  rw [unread, List.head?_drop]

theorem head?_uninserted (r : IndexedReader) :
    r.chunkIndexes[r.curChunkIndex]? = r.uninserted.head? := by
  rw [uninserted, List.head?_drop]

theorem agree_yieldChunkFirst (h : Agree r s) (hi : i ∈ r.unread) (c : ChunkIndex) :
    r.yieldChunkFirst c i = s.yieldChunkFirst c i := by
  rw [yieldChunkFirst, yieldChunkFirst, h.order, h.slot hi]

theorem agree_yieldMessage (h : Agree r s) {rest : List SlotIndex} (hi : r.unread = i :: rest) :
    (yieldMessage i r).1 = (yieldMessage i s).1 ∧ Agree (yieldMessage i r).2 (yieldMessage i s).2 := by
  have hi' : s.unread = i :: rest := h.unread.symm.trans hi
  have hslot := h.slot (hi ▸ List.mem_cons_self)
  rw [yieldMessage, yieldMessage, ← hslot, h.limit]
  cases hk : r.chunkSlots[i.chunkSlotIdx]? with
  | none => exact ⟨rfl, h⟩
  | some slot =>
    have hk' : s.chunkSlots[i.chunkSlotIdx]? = some slot := hslot.symm.trans hk
    have hrest : r.messageIndexes.drop (r.curMessageIndex + 1) = rest := (getElem?_cur hi).2
    have hrest' : s.messageIndexes.drop (s.curMessageIndex + 1) = rest := (getElem?_cur hi').2
    have hmem : ∀ j ∈ rest, j ∈ r.unread ∧ j ∈ s.unread := fun j hj =>
      ⟨hi ▸ List.mem_cons_of_mem _ hj, hi' ▸ List.mem_cons_of_mem _ hj⟩
    simp only
    cases readMessage s.recordLengthLimit slot i.offset with
    | err e | panic => exact ⟨rfl, h⟩
    | ok m =>
      simp only
      split
      · refine ⟨rfl, h.order, h.filter, rfl, h.waiting, hrest.trans hrest'.symm, fun k => ?_⟩
        rcases h.slots k with heq | ⟨hr, hs⟩
        · exact .inl heq
        · exact .inr ⟨hr.of_tail rfl fun j hj => (hmem j (hrest ▸ hj)).1,
            hs.of_tail rfl fun j hj => (hmem j (hrest' ▸ hj)).2⟩
      · refine ⟨rfl, h.order, h.filter, rfl, h.waiting, hrest.trans hrest'.symm, fun k => ?_⟩
        by_cases hik : i.chunkSlotIdx = k
        · subst hik
          left
          rw [List.getElem?_set_self (List.getElem?_eq_some_iff.mp hk).1,
            List.getElem?_set_self (List.getElem?_eq_some_iff.mp hk').1]
        · rw [List.getElem?_set_ne hik, List.getElem?_set_ne hik]
          rcases h.slots k with heq | ⟨hr, hs⟩
          · exact .inl heq
          · exact .inr ⟨hr.of_tail (List.getElem?_set_ne hik) fun j hj => (hmem j (hrest ▸ hj)).1,
              hs.of_tail (List.getElem?_set_ne hik) fun j hj => (hmem j (hrest' ▸ hj)).2⟩

theorem agree_nextEvent (h : Agree r s) :
    (nextEvent r).1 = (nextEvent s).1 ∧ Agree (nextEvent r).2 (nextEvent s).2 := by
  rw [nextEvent, nextEvent, head?_unread, head?_unread, head?_uninserted, head?_uninserted,
    ← h.unread, ← h.waiting]
  cases hu : r.unread with
  | nil =>
    cases r.uninserted with
    | nil => exact ⟨rfl, h⟩
    | cons c rest =>
      simp only [List.head?_nil, List.head?_cons, h.limit]
      exact ⟨trivial, h⟩
  | cons i rest =>
    have hi : i ∈ r.unread := hu ▸ List.mem_cons_self
    cases r.uninserted with
    | nil => exact agree_yieldMessage h hu
    | cons c waiting =>
      simp only [List.head?_cons, agree_yieldChunkFirst h hi, h.limit]
      rcases s.yieldChunkFirst c i with (_ | _) | e | _
      · exact agree_yieldMessage h hu
      · exact ⟨rfl, h⟩
      · exact ⟨rfl, h⟩
      · exact ⟨rfl, h⟩

/-! ## Insertions -/

theorem findOrMakeChunkSlot_least (ds : UInt64) (slots : List ChunkSlot)
    (hk : k < (findOrMakeChunkSlot ds slots).1) :
    ∃ slot, slots[k]? = some slot ∧ slot.messageCount ≠ 0 := by
  induction slots generalizing k with
  | nil => exact absurd hk (Nat.not_lt_zero _)
  | cons slot slots ih =>
    rw [findOrMakeChunkSlot] at hk
    split at hk
    · exact absurd hk (Nat.not_lt_zero _)
    · rename_i hne
      cases k with
      | zero => exact ⟨slot, rfl, hne⟩
      | succ k => exact ih (Nat.lt_of_succ_lt_succ hk)

theorem Agree.slotIdx (h : Agree r s) (ds : UInt64) :
    (findOrMakeChunkSlot ds r.chunkSlots).1 = (findOrMakeChunkSlot ds s.chunkSlots).1 := by
  obtain ⟨i, slots, hrun, -, -, hfree⟩ := findOrMakeChunkSlot_spec ds r.chunkSlots
  obtain ⟨j, slots', hrun', -, -, hfree'⟩ := findOrMakeChunkSlot_spec ds s.chunkSlots
  rw [hrun, hrun']
  -- a slot that is free in one reader is free in the other
  rcases Nat.lt_trichotomy i j with hlt | heq | hgt
  · obtain ⟨slot, hs, hne⟩ := findOrMakeChunkSlot_least ds s.chunkSlots (k := i)
      (by rw [hrun']; exact hlt)
    rcases h.slots i with heq | ⟨-, hs'⟩
    · exact absurd (hfree slot (heq.trans hs)) hne
    · exact absurd (hs'.free slot hs) hne
  · exact heq
  · obtain ⟨slot, hs, hne⟩ := findOrMakeChunkSlot_least ds r.chunkSlots (k := j)
      (by rw [hrun]; exact hgt)
    rcases h.slots j with heq | ⟨hr, -⟩
    · exact absurd (hfree' slot (heq.symm.trans hs)) hne
    · exact absurd (hr.free slot hs) hne

/-- The slots, once one of them has been taken. -/
def takeSlot (ds : UInt64) (r : IndexedReader) : IndexedReader :=
  { r with chunkSlots := (findOrMakeChunkSlot ds r.chunkSlots).2 }

theorem getElem?_takeSlot_self (ds : UInt64) (r : IndexedReader) :
    (r.takeSlot ds).chunkSlots[(findOrMakeChunkSlot ds r.chunkSlots).1]? =
      some { buf := [], dataStart := ds, messageCount := 0 } := by
  obtain ⟨i, slots, hrun, hi, -, -⟩ := findOrMakeChunkSlot_spec ds r.chunkSlots
  rw [takeSlot, hrun]
  exact hi

theorem getElem?_takeSlot_ne (ds : UInt64) (r : IndexedReader)
    (hk : k ≠ (findOrMakeChunkSlot ds r.chunkSlots).1) :
    (r.takeSlot ds).chunkSlots[k]? = r.chunkSlots[k]? := by
  obtain ⟨i, slots, hrun, -, hother, -⟩ := findOrMakeChunkSlot_spec ds r.chunkSlots
  rw [hrun] at hk
  rw [takeSlot, hrun]
  exact hother k hk

/-- The chunk is put into the slot. -/
def fillSlot (k : Nat) (buf : Bytes) (r : IndexedReader) : IndexedReader :=
  { r with chunkSlots := r.chunkSlots.modify k fun slot => { slot with buf } }

/-- **An insertion**, in terms of its parts. -/
theorem insert_eq (C : Codecs) (offset : UInt64) (data : Bytes) (r : IndexedReader) :
    insertChunkRecordData C offset data r =
      match findChunk offset r.uninserted with
      | .panic => (.panic, r)
      | .err e => (.err e, r)
      | .ok none => (.err .unexpectedChunkDataInserted, r)
      | .ok (some (i, c)) =>
          if data.length ≠ c.compressedSize.toNat then (.err .unexpectedChunkDataInserted, r)
          else
            match decode C c.compression c.uncompressedSize.toNat data with
            | .panic => (.panic, r.takeSlot offset)
            | .err e => (.err e, r.takeSlot offset)
            | .ok buf =>
                indexChunk i (findOrMakeChunkSlot offset r.chunkSlots).1 buf
                  ((r.takeSlot offset).fillSlot (findOrMakeChunkSlot offset r.chunkSlots).1 buf) :=
  rfl

theorem agree_takeSlot (h : Agree r s) (ds : UInt64) : Agree (r.takeSlot ds) (s.takeSlot ds) := by
  refine ⟨h.order, h.filter, h.limit, h.waiting, h.unread, fun k => ?_⟩
  by_cases hk : k = (findOrMakeChunkSlot ds r.chunkSlots).1
  · left
    rw [hk, getElem?_takeSlot_self, h.slotIdx ds, getElem?_takeSlot_self]
  · have hk' : k ≠ (findOrMakeChunkSlot ds s.chunkSlots).1 := h.slotIdx ds ▸ hk
    rw [getElem?_takeSlot_ne ds r hk, getElem?_takeSlot_ne ds s hk']
    rcases h.slots k with heq | ⟨hr, hs⟩
    · exact .inl heq
    · exact .inr ⟨hr.of_tail (getElem?_takeSlot_ne ds r hk) fun _ hj => hj,
        hs.of_tail (getElem?_takeSlot_ne ds s hk') fun _ hj => hj⟩

theorem Agree.modify (h : Agree r s) (hk : r.chunkSlots[k]? = s.chunkSlots[k]?)
    (f : ChunkSlot → ChunkSlot) :
    Agree { r with chunkSlots := r.chunkSlots.modify k f }
      { s with chunkSlots := s.chunkSlots.modify k f } := by
  refine ⟨h.order, h.filter, h.limit, h.waiting, h.unread, fun j => ?_⟩
  by_cases hj : k = j
  · subst hj
    left
    simp only [List.getElem?_modify_eq, hk]
  · have hr : (r.chunkSlots.modify k f)[j]? = r.chunkSlots[j]? := List.getElem?_modify_ne _ _ hj
    have hs : (s.chunkSlots.modify k f)[j]? = s.chunkSlots[j]? := List.getElem?_modify_ne _ _ hj
    simp only [hr, hs]
    rcases h.slots j with heq | ⟨hur, hus⟩
    · exact .inl heq
    · exact .inr ⟨hur.of_tail hr fun _ h => h, hus.of_tail hs fun _ h => h⟩

theorem dataStart_congr {slots slots' : List ChunkSlot}
    (h : slots[i.chunkSlotIdx]? = slots'[i.chunkSlotIdx]?) :
    dataStart slots i = dataStart slots' i := by
  rw [dataStart, dataStart, h]

theorem sortUnread_congr (order : ReadOrder) {slots slots' : List ChunkSlot} {l : List SlotIndex}
    (h : ∀ i ∈ l, slots[i.chunkSlotIdx]? = slots'[i.chunkSlotIdx]?) :
    sortUnread order slots l = sortUnread order slots' l := by
  have hrel : List.Forall₂
      (fun a b : SlotIndex => a = b ∧ slots[a.chunkSlotIdx]? = slots'[a.chunkSlotIdx]?) l l :=
    List.forall₂_same.mpr fun i hi => ⟨rfl, h i hi⟩
  have heq : ∀ {xs ys : List SlotIndex}, List.Forall₂
      (fun a b : SlotIndex => a = b ∧ slots[a.chunkSlotIdx]? = slots'[a.chunkSlotIdx]?) xs ys →
      xs = ys :=
    fun hxy => List.forall₂_eq_eq_eq ▸ hxy.imp fun _ _ h => h.1
  cases order <;>
    refine heq (forall₂_insertionSort (fun a b a' b' hab hab' => ?_) hrel) <;>
    obtain ⟨rfl, ha⟩ := hab <;> obtain ⟨rfl, ha'⟩ := hab' <;>
    simp only [dataStart_congr ha, dataStart_congr ha']

theorem mem_reverseNew {order : ReadOrder} {l : List SlotIndex} :
    i ∈ reverseNew order 0 l ↔ i ∈ l := by
  cases order with
  | reverseLogTime => simp [reverseNew]
  | logTime => rfl
  | file => rfl

theorem merged_perm (order : ReadOrder) (slots : List ChunkSlot) (unread : List SlotIndex)
    (s : Scan) : (merged order slots unread s).Perm (unread ++ s.messageIndexes) := by
  have hnew : (reverseNew order 0 s.messageIndexes).Perm s.messageIndexes := by
    cases order with
    | reverseLogTime => simp [reverseNew]
    | logTime => exact .refl _
    | file => exact .refl _
  rw [merged]
  split
  · exact (sortUnread_perm ..).trans (hnew.append_left _)
  · exact hnew.append_left _

theorem Unused.of_append {j : Nat} {r' : IndexedReader} {new : List SlotIndex} (h : r.Unused j)
    (hslot : r'.chunkSlots[j]? = r.chunkSlots[j]?) (hunread : r'.unread.Perm (r.unread ++ new))
    (hnew : ∀ i ∈ new, i.chunkSlotIdx = k) (hkj : k ≠ j) : r'.Unused j := by
  refine ⟨fun slot hs => h.free slot (hslot.symm.trans hs), fun i hi => ?_⟩
  rcases List.mem_append.mp (hunread.mem_iff.mp hi) with hi | hi
  · exact h.unread i hi
  · rw [hnew i hi]
    exact hkj

theorem agree_indexChunk (h : Agree r s) (i : Nat) (buf : Bytes)
    (hk : r.chunkSlots[k]? = s.chunkSlots[k]?) :
    (indexChunk i k buf r).1 = (indexChunk i k buf s).1 ∧
      Agree (indexChunk i k buf r).2 (indexChunk i k buf s).2 := by
  obtain ⟨r', hr, hro, hrf, hrl, hrest⟩ := indexChunk_eq i k buf r
  obtain ⟨s', hs, hso, hsf, hsl, hrest'⟩ := indexChunk_eq i k buf s
  rw [← h.order, ← h.filter, ← h.limit, ← h.unread] at hs hrest'
  rw [hr, hs]
  suffices hkey : r'.uninserted = s'.uninserted ∧ r'.unread = s'.unread ∧
      ∀ j, r'.chunkSlots[j]? = s'.chunkSlots[j]? ∨ (r'.Unused j ∧ s'.Unused j) from
    ⟨rfl, hro.trans (h.order.trans hso.symm), hrf.trans (h.filter.trans hsf.symm),
      hrl.trans (h.limit.trans hsl.symm), hkey.1, hkey.2.1, hkey.2.2⟩
  have hidx : ∀ j ∈ (scanChunk k r.order r.filter r.recordLengthLimit
      (!r.unread.isEmpty) buf).2.messageIndexes, j.chunkSlotIdx = k := by
    obtain ⟨records, -, -, -, hnew, -⟩ := scanChunk_records k r.order r.filter r.recordLengthLimit
      (!r.unread.isEmpty) buf
    intro j hj
    rw [hnew] at hj
    exact slotIdx_of_selected hj
  rcases hscan : scanChunk k r.order r.filter r.recordLengthLimit (!r.unread.isEmpty) buf with
    ⟨e | _, t⟩ <;> rw [hscan] at hrest hrest' hidx
  · obtain ⟨hu, hslots, hwait⟩ := hrest
    obtain ⟨hu', hslots', hwait'⟩ := hrest'
    refine ⟨by rw [hwait, hwait', h.waiting], by rw [hu, hu'], fun j => ?_⟩
    by_cases hkj : k = j
    · left
      rw [hslots, hslots', ← hkj, hk]
    · rcases h.slots j with heq | ⟨hur, hus⟩
      · left
        rw [hslots, hslots', heq]
      · exact .inr ⟨hur.of_append (by rw [hslots]) (hu ▸ .refl _) hidx hkj,
          hus.of_append (by rw [hslots']) (by rw [hu', h.unread]) hidx hkj⟩
  · obtain ⟨hu, hslots, hwait⟩ := hrest
    obtain ⟨hu', hslots', hwait'⟩ := hrest'
    have hmerged : merged r.order r.chunkSlots r.unread t = merged r.order s.chunkSlots r.unread t := by
      rw [merged, merged, sortUnread_congr]
      intro j hj
      rcases List.mem_append.mp hj with hj | hj
      · exact h.slot hj
      · rw [hidx j (mem_reverseNew.mp hj)]
        exact hk
    refine ⟨by rw [hwait, hwait', h.waiting], by rw [hu, hu', hmerged], fun j => ?_⟩
    have hother : ∀ {slots : List ChunkSlot} {f : ChunkSlot → ChunkSlot}, k ≠ j →
        (slots.modify k f)[j]? = slots[j]? := fun hkj => List.getElem?_modify_ne _ _ hkj
    by_cases hkj : k = j
    · left
      rw [hslots, hslots', ← hkj, List.getElem?_modify_eq, List.getElem?_modify_eq, hk]
    · rcases h.slots j with heq | ⟨hur, hus⟩
      · left
        rw [hslots, hslots', hother hkj, hother hkj, heq]
      · exact .inr ⟨hur.of_append (by rw [hslots, hother hkj])
            (by rw [hu]; exact merged_perm ..) hidx hkj,
          hus.of_append (by rw [hslots', hother hkj])
            (by rw [hu', ← h.unread]; exact merged_perm ..) hidx hkj⟩

/-- **Every call keeps the agreement** of two readers and returns the same of both. -/
theorem agree_run (C : Codecs) (call : Call) (h : Agree r s) :
    (call.run C r).1 = (call.run C s).1 ∧ Agree (call.run C r).2 (call.run C s).2 := by
  cases call with
  | next => exact agree_nextEvent h
  | insert offset data =>
    have hins : (insertChunkRecordData C offset data r).1 =
        (insertChunkRecordData C offset data s).1 ∧
        Agree (insertChunkRecordData C offset data r).2 (insertChunkRecordData C offset data s).2 := by
      rw [insert_eq, insert_eq, ← h.waiting]
      rcases findChunk offset r.uninserted with (_ | ⟨i, c⟩) | e | _
      · exact ⟨rfl, h⟩
      · simp only
        split
        · exact ⟨rfl, h⟩
        · rcases decode C c.compression c.uncompressedSize.toNat data with buf | e | _
          · simp only
            rw [← h.slotIdx offset]
            have hk : (r.takeSlot offset).chunkSlots[(findOrMakeChunkSlot offset r.chunkSlots).1]? =
                (s.takeSlot offset).chunkSlots[(findOrMakeChunkSlot offset r.chunkSlots).1]? := by
              rw [getElem?_takeSlot_self, h.slotIdx offset, getElem?_takeSlot_self]
            refine agree_indexChunk ((agree_takeSlot h offset).modify hk _) i buf ?_
            simp only [List.getElem?_modify_eq, hk]
          · exact ⟨rfl, agree_takeSlot h offset⟩
          · exact ⟨rfl, agree_takeSlot h offset⟩
      · exact ⟨rfl, h⟩
      · exact ⟨rfl, h⟩
    rw [Call.run, Exec.bind_run, Exec.bind_run]
    rcases hr : insertChunkRecordData C offset data r with ⟨x, r'⟩
    rcases hs : insertChunkRecordData C offset data s with ⟨y, s'⟩
    rw [hr, hs] at hins
    obtain ⟨hxy, hagree⟩ := hins
    obtain rfl : x = y := hxy
    cases x with
    | ok a | err e | panic => exact ⟨rfl, hagree⟩

theorem agree_events (C : Codecs) (calls : List Call) (h : Agree r s) :
    events C calls r = events C calls s := by
  induction calls generalizing r s with
  | nil => rfl
  | cons call calls ih =>
    obtain ⟨hres, hagree⟩ := agree_run C call h
    rw [events, events, hres, ih hagree]

/-! ## Readers in order -/

/-- **What holds between the calls**: the chunk indexes that are left can be located, each
slot counts the unread indexes that point to it, and each of these points to a message
that passes the filter. -/
structure Good (r : IndexedReader) : Prop where
  offsets : ∀ c ∈ r.uninserted, ∃ off, c.compressedDataOffset = .ok off
  counts : ∀ k slot, r.chunkSlots[k]? = some slot →
    slot.messageCount = r.unread.countP fun i => i.chunkSlotIdx = k
  messages : ∀ i ∈ r.unread, ∃ slot, r.chunkSlots[i.chunkSlotIdx]? = some slot ∧
    ∃ m, readMessage r.recordLengthLimit slot i.offset = .ok m ∧
      Filter.accepts r.filter m.1 = true

theorem Good.unused (h : Good r)
    (hfree : ∀ slot, r.chunkSlots[k]? = some slot → slot.messageCount = 0) : r.Unused k := by
  refine ⟨hfree, fun i hi hik => ?_⟩
  obtain ⟨slot, hslot, -⟩ := h.messages i hi
  rw [hik] at hslot
  have hcount := h.counts k slot hslot
  rw [hfree slot hslot] at hcount
  exact List.countP_eq_zero.mp hcount.symm i hi (by simpa using hik)

theorem Good.taken (h : Good r) (ds : UInt64) :
    r.Unused (findOrMakeChunkSlot ds r.chunkSlots).1 := by
  obtain ⟨i, slots, hrun, -, -, hfree⟩ := findOrMakeChunkSlot_spec ds r.chunkSlots
  rw [hrun]
  exact h.unused hfree

/-- **A slot that is taken in vain** makes no difference. -/
theorem agree_of_takeSlot (h : Good r) (ds : UInt64) : Agree (r.takeSlot ds) r := by
  refine ⟨rfl, rfl, rfl, rfl, rfl, fun k => ?_⟩
  by_cases hk : k = (findOrMakeChunkSlot ds r.chunkSlots).1
  · subst hk
    refine .inr ⟨⟨fun slot hslot => ?_, (h.taken ds).unread⟩, h.taken ds⟩
    rw [getElem?_takeSlot_self] at hslot
    cases hslot
    rfl
  · exact .inl (getElem?_takeSlot_ne ds r hk)

theorem Good.of_agree (h : Good r) (ha : Agree s r) : Good s := by
  refine ⟨fun c hc => h.offsets c (ha.waiting ▸ hc), fun k slot hslot => ?_, fun i hi => ?_⟩
  · rcases ha.slots k with heq | ⟨hs, -⟩
    · rw [ha.unread]
      exact h.counts k slot (heq.symm.trans hslot)
    · rw [hs.free slot hslot, eq_comm, List.countP_eq_zero]
      exact fun i hi => by simpa using hs.unread i hi
  · obtain ⟨slot, hslot, m, hm⟩ := h.messages i (ha.unread ▸ hi)
    exact ⟨slot, (ha.slot hi).trans hslot, m, by rw [ha.limit, ha.filter]; exact hm⟩

theorem good_takeSlot (h : Good r) (ds : UInt64) : Good (r.takeSlot ds) :=
  h.of_agree (agree_of_takeSlot h ds)

theorem good_fillSlot (h : Good r) (hk : r.Unused k) (buf : Bytes) :
    Good (r.fillSlot k buf) := by
  have hother : ∀ {j : Nat}, k ≠ j → (r.fillSlot k buf).chunkSlots[j]? = r.chunkSlots[j]? :=
    fun hkj => List.getElem?_modify_ne _ _ hkj
  refine ⟨h.offsets, fun j slot hslot => ?_, fun i hi => ?_⟩
  · by_cases hkj : k = j
    · subst hkj
      rw [fillSlot, List.getElem?_modify_eq] at hslot
      obtain ⟨slot', hslot', rfl⟩ := Option.map_eq_some_iff.mp hslot
      exact h.counts k slot' hslot'
    · exact h.counts j slot ((hother hkj).symm.trans hslot)
  · obtain ⟨slot, hslot, hm⟩ := h.messages i hi
    exact ⟨slot, (hother (Ne.symm (hk.unread i hi))).trans hslot, hm⟩

/-! ### Events -/

theorem good_yieldMessage (h : Good r) {rest : List SlotIndex} (hi : r.unread = i :: rest) :
    (yieldMessage i r).1 ≠ .panic ∧ Good (yieldMessage i r).2 := by
  obtain ⟨slot, hslot, m, hm, -⟩ := h.messages i (hi ▸ List.mem_cons_self)
  have hrest : r.messageIndexes.drop (r.curMessageIndex + 1) = rest := (getElem?_cur hi).2
  have hcount := h.counts _ slot hslot
  rw [hi, List.countP_cons_of_pos (by simp)] at hcount
  rw [yieldMessage, hslot]
  simp only [hm]
  rw [if_neg (by omega)]
  refine ⟨by simp, h.offsets, fun k slot' hslot' => ?_, fun j hj => ?_⟩
  · show slot'.messageCount = (r.messageIndexes.drop (r.curMessageIndex + 1)).countP _
    rw [hrest]
    by_cases hik : i.chunkSlotIdx = k
    · subst hik
      rw [List.getElem?_set_self (List.getElem?_eq_some_iff.mp hslot).1] at hslot'
      cases hslot'
      show slot.messageCount - 1 = _
      omega
    · rw [List.getElem?_set_ne hik] at hslot'
      have := h.counts k slot' hslot'
      rwa [hi, List.countP_cons_of_neg (by simpa using hik)] at this
  · have hj' : j ∈ r.unread := by
      rw [hi]
      exact List.mem_cons_of_mem _ (hrest ▸ hj)
    obtain ⟨slot', hslot', m', hm'⟩ := h.messages j hj'
    by_cases hij : i.chunkSlotIdx = j.chunkSlotIdx
    · rw [← hij] at hslot' ⊢
      cases hslot.symm.trans hslot'
      exact ⟨_, List.getElem?_set_self (List.getElem?_eq_some_iff.mp hslot).1, m', hm'⟩
    · exact ⟨slot', (List.getElem?_set_ne hij).trans hslot', m', hm'⟩

theorem good_nextEvent (h : Good r) : (nextEvent r).1 ≠ .panic ∧ Good (nextEvent r).2 := by
  have hrequest : ∀ c ∈ r.uninserted, chunkRequest c r.recordLengthLimit ≠ .panic := by
    intro c hc
    obtain ⟨off, hoff⟩ := h.offsets c hc
    rw [chunkRequest, hoff]
    split <;> simp
  rw [nextEvent, head?_unread, head?_uninserted]
  cases hu : r.unread with
  | nil =>
    cases hw : r.uninserted with
    | nil => exact ⟨by simp, h⟩
    | cons c waiting => exact ⟨hrequest c (hw ▸ List.mem_cons_self), h⟩
  | cons i rest =>
    cases hw : r.uninserted with
    | nil => exact good_yieldMessage h hu
    | cons c waiting =>
      have hc : c ∈ r.uninserted := hw ▸ List.mem_cons_self
      obtain ⟨off, hoff⟩ := h.offsets c hc
      obtain ⟨slot, hslot, -⟩ := h.messages i (hu ▸ List.mem_cons_self)
      have hyield : ∃ b, r.yieldChunkFirst c i = .ok b := by
        rw [yieldChunkFirst, hslot, hoff]
        cases r.order <;> exact ⟨_, rfl⟩
      obtain ⟨b, hb⟩ := hyield
      simp only [List.head?_cons, hb]
      cases b with
      | false => exact good_yieldMessage h hu
      | true => exact ⟨hrequest c hc, h⟩

/-! ### Insertions -/

theorem readMessage_of_selected {slotIdx : Nat} {filter : Filter} {limit : Option Nat}
    {records : List (UInt8 × Bytes)} {tail : Bytes} {slot : ChunkSlot}
    (hall : ∀ record ∈ records, Readable limit record) (hbuf : slot.buf = frames records ++ tail)
    (h : i ∈ selectedIndexes slotIdx filter records) :
    ∃ m, readMessage limit slot i.offset = .ok m ∧ Filter.accepts filter m.1 = true := by
  obtain ⟨l, hl, rfl⟩ := List.mem_map.mp h
  obtain ⟨hmem, hacc⟩ := List.mem_filter.mp hl
  exact ⟨_, readMessage_of_locate [] tail hall hmem hbuf, hacc⟩

/-- **A chunk in an unused slot is indexed.** -/
theorem good_indexChunk (h : Good r) {i k : Nat} {buf : Bytes} {slot : ChunkSlot}
    (hk : r.Unused k) (hslot : r.chunkSlots[k]? = some slot) (hbuf : slot.buf = buf)
    (hrun : (indexChunk i k buf r).1 = .ok ()) : Good (indexChunk i k buf r).2 := by
  obtain ⟨r', hr, hro, hrf, hrl, hrest⟩ := indexChunk_eq i k buf r
  obtain ⟨records, tail, hframes, hall, hnew, -⟩ := scanChunk_records k r.order r.filter
    r.recordLengthLimit (!r.unread.isEmpty) buf
  rw [hr] at hrun ⊢
  rcases hscan : scanChunk k r.order r.filter r.recordLengthLimit (!r.unread.isEmpty) buf with
    ⟨e | _, t⟩ <;> rw [hscan] at hrest hrun hnew
  · cases hrun
  · obtain ⟨hu, hslots, hwait⟩ := hrest
    have hperm : r'.unread.Perm (r.unread ++ t.messageIndexes) := by
      rw [hu]
      exact merged_perm ..
    have hnew' : t.messageIndexes = selectedIndexes k r.filter records := hnew
    have hidx : ∀ j ∈ t.messageIndexes, j.chunkSlotIdx = k := fun j hj =>
      slotIdx_of_selected (hnew' ▸ hj)
    have hother : ∀ {j : Nat}, k ≠ j → r'.chunkSlots[j]? = r.chunkSlots[j]? := by
      intro j hkj
      rw [hslots]
      exact List.getElem?_modify_ne _ _ hkj
    have hself : r'.chunkSlots[k]? =
        some { slot with messageCount := t.messageIndexes.length } := by
      rw [hslots, List.getElem?_modify_eq, hslot]
      rfl
    refine ⟨fun c hc => h.offsets c (List.mem_of_mem_eraseIdx (hwait ▸ hc)),
      fun j slot' hslot' => ?_, fun j hj => ?_⟩
    · rw [hperm.countP_eq, List.countP_append]
      by_cases hkj : k = j
      · subst hkj
        cases hself.symm.trans hslot'
        have hold : r.unread.countP (fun i => i.chunkSlotIdx = k) = 0 :=
          List.countP_eq_zero.mpr fun i hi => by simpa using hk.unread i hi
        have hadded : t.messageIndexes.countP (fun i => i.chunkSlotIdx = k) =
            t.messageIndexes.length :=
          List.countP_eq_length.mpr fun i hi => by simpa using hidx i hi
        rw [hold, hadded, Nat.zero_add]
      · have hadded : t.messageIndexes.countP (fun i => i.chunkSlotIdx = j) = 0 :=
          List.countP_eq_zero.mpr fun i hi => by simpa [hidx i hi] using hkj
        rw [hadded, Nat.add_zero]
        exact h.counts j slot' ((hother hkj).symm.trans hslot')
    · rw [hrl, hrf]
      rcases List.mem_append.mp (hperm.mem_iff.mp hj) with hj | hj
      · obtain ⟨slot', hslot', hm⟩ := h.messages j hj
        exact ⟨slot', (hother (Ne.symm (hk.unread j hj))).trans hslot', hm⟩
      · refine ⟨_, by rw [hidx j hj]; exact hself, ?_⟩
        exact readMessage_of_selected hall (hbuf.trans hframes) (hnew' ▸ hj)

theorem mem_locate {ds off : Nat} {records : List (UInt8 × Bytes)} {l : Located}
    (h : l ∈ locate ds off records) : ∃ body c, (op.MESSAGE, body) ∈ records ∧
      readLeFrom MessageHeader.read body = .ok (l.header, c) := by
  induction records generalizing off with
  | nil => cases h
  | cons record records ih =>
    obtain ⟨opcode, body⟩ := record
    have hlater : l ∈ locate ds (off + 9 + body.length) records →
        ∃ body' c, (op.MESSAGE, body') ∈ (opcode, body) :: records ∧
          readLeFrom MessageHeader.read body' = .ok (l.header, c) := by
      intro h
      obtain ⟨body', c, hmem, hread⟩ := ih h
      exact ⟨body', c, List.mem_cons_of_mem _ hmem, hread⟩
    simp only [locate] at h
    split at h
    · rename_i hop
      split at h
      · rename_i header c hread
        rcases List.mem_cons.mp h with rfl | h
        · exact ⟨body, c, hop ▸ List.mem_cons_self, hread⟩
        · exact hlater h
      · exact hlater h
    · exact hlater h

/-- No message that passes the filter stands before a malformed record. -/
def Unspoilt (filter : Filter) (limit : Option Nat) (buf : Bytes) : Prop :=
  ∀ records tail, buf = frames records ++ tail → (∀ record ∈ records, Readable limit record) →
    Malformed limit tail → ∀ body header c, (op.MESSAGE, body) ∈ records →
      readLeFrom MessageHeader.read body = .ok (header, c) → Filter.accepts filter header = false

/-- **The condition on a call that fails**: the data it brings is that of no waiting
chunk, or cannot be decompressed, or is not malformed after a message that passes the
filter. -/
def Call.Clean (C : Codecs) (r : IndexedReader) : Call → Prop
  | .next => True
  | .insert offset data => ∀ i c buf, findChunk offset r.uninserted = .ok (some (i, c)) →
      data.length = c.compressedSize.toNat →
      decode C c.compression c.uncompressedSize.toNat data = .ok buf →
      Unspoilt r.filter r.recordLengthLimit buf

theorem scanChunk_unspoilt {order : ReadOrder} {filter : Filter} {limit : Option Nat} {more : Bool}
    {buf : Bytes} (h : Unspoilt filter limit buf) {t : Scan}
    (hscan : scanChunk k order filter limit more buf = (.error e, t)) : t.messageIndexes = [] := by
  obtain ⟨records, tail, hbuf, hall, hidx, herr⟩ := scanChunk_records k order filter limit more buf
  rw [hscan] at hidx herr
  have hsel : selectedIndexes k filter records = [] := by
    rw [selectedIndexes, List.map_eq_nil_iff, List.filter_eq_nil_iff]
    intro l hl
    obtain ⟨body, c, hmem, hread⟩ := mem_locate hl
    rw [h records tail hbuf hall (herr e rfl) body l.header c hmem hread]
    exact Bool.false_ne_true
  exact hidx.trans hsel

theorem indexChunk_unspoilt {i : Nat} {buf : Bytes} (h : Unspoilt r.filter r.recordLengthLimit buf)
    (hrun : indexChunk i k buf r = (.err e, s)) :
    s.order = r.order ∧ s.filter = r.filter ∧ s.recordLengthLimit = r.recordLengthLimit ∧
      s.uninserted = r.uninserted ∧ s.unread = r.unread ∧ s.chunkSlots = r.chunkSlots := by
  obtain ⟨r', hr, hro, hrf, hrl, hrest⟩ := indexChunk_eq i k buf r
  rw [hr] at hrun
  obtain ⟨hres, rfl⟩ := Prod.mk.inj hrun
  rcases hscan : scanChunk k r.order r.filter r.recordLengthLimit (!r.unread.isEmpty) buf with
    ⟨e' | _, t⟩ <;> rw [hscan] at hrest hres
  · obtain ⟨hu, hslots, hwait⟩ := hrest
    rw [scanChunk_unspoilt h hscan, List.append_nil] at hu
    exact ⟨hro, hrf, hrl, hwait, hu, hslots⟩
  · cases hres

/-- **A clean insertion that fails** makes no difference. -/
theorem agree_of_error {offset : UInt64} {data : Bytes} (h : Good r)
    (hclean : (Call.insert offset data).Clean C r)
    (hrun : insertChunkRecordData C offset data r = (.err e, s)) : Agree s r := by
  have hrefl : Agree r r := ⟨rfl, rfl, rfl, rfl, rfl, fun _ => .inl rfl⟩
  rw [insert_eq] at hrun
  cases hfind : findChunk offset r.uninserted with
  | panic =>
    simp only [hfind] at hrun
    cases hrun
  | err e' =>
    simp only [hfind] at hrun
    cases hrun
    exact hrefl
  | ok found =>
    cases found with
    | none =>
      simp only [hfind] at hrun
      cases hrun
      exact hrefl
    | some p =>
      obtain ⟨i, c⟩ := p
      simp only [hfind] at hrun
      split at hrun
      · cases hrun
        exact hrefl
      · rename_i hlen
        cases hdec : decode C c.compression c.uncompressedSize.toNat data with
        | panic =>
          simp only [hdec] at hrun
          cases hrun
        | err e' =>
          simp only [hdec] at hrun
          cases hrun
          exact agree_of_takeSlot h offset
        | ok buf =>
          simp only [hdec] at hrun
          have hun := hclean i c buf hfind (not_not.mp hlen) hdec
          obtain ⟨hso, hsf, hsl, hwait, hu, hslots⟩ := indexChunk_unspoilt (r := (r.takeSlot offset).fillSlot
            (findOrMakeChunkSlot offset r.chunkSlots).1 buf) hun hrun
          refine ⟨hso, hsf, hsl, hwait, hu, fun k => ?_⟩
          by_cases hk : k = (findOrMakeChunkSlot offset r.chunkSlots).1
          · subst hk
            refine .inr ⟨⟨fun slot hslot => ?_, ?_⟩, h.taken offset⟩
            · rw [hslots, fillSlot, List.getElem?_modify_eq, getElem?_takeSlot_self] at hslot
              cases hslot
              rfl
            · rw [hu]
              exact (h.taken offset).unread
          · left
            rw [hslots, fillSlot, List.getElem?_modify_ne _ _ (Ne.symm hk),
              getElem?_takeSlot_ne offset r hk]

theorem good_insert {offset : UInt64} {data : Bytes} (h : Good r)
    (hrun : insertChunkRecordData C offset data r = (.ok (), s)) : Good s := by
  rw [insert_eq] at hrun
  cases hfind : findChunk offset r.uninserted with
  | panic | err e' =>
    simp only [hfind] at hrun
    cases hrun
  | ok found =>
    cases found with
    | none =>
      simp only [hfind] at hrun
      cases hrun
    | some p =>
      obtain ⟨i, c⟩ := p
      simp only [hfind] at hrun
      split at hrun
      · cases hrun
      · cases hdec : decode C c.compression c.uncompressedSize.toNat data with
        | panic | err e' =>
          simp only [hdec] at hrun
          cases hrun
        | ok buf =>
          simp only [hdec] at hrun
          have htaken : (r.takeSlot offset).Unused (findOrMakeChunkSlot offset r.chunkSlots).1 := by
            refine (good_takeSlot h offset).unused fun slot hslot => ?_
            rw [getElem?_takeSlot_self] at hslot
            cases hslot
            rfl
          have hg := @good_indexChunk _
            (good_fillSlot (good_takeSlot h offset) htaken buf) i _ buf
            { buf, dataStart := offset, messageCount := 0 }
            ⟨fun slot hslot => ?_, htaken.unread⟩ ?_ rfl (by rw [hrun])
          · rwa [hrun] at hg
          · rw [fillSlot, List.getElem?_modify_eq, getElem?_takeSlot_self] at hslot
            cases hslot
            rfl
          · rw [fillSlot, List.getElem?_modify_eq, getElem?_takeSlot_self]
            rfl

/-! ## Runs -/

theorem forall_of_forM {ε α : Type} {f : α → Except ε Unit} {l : List α} (h : l.forM f = .ok ())
    {x : α} (hx : x ∈ l) : f x = .ok () := by
  induction l with
  | nil => cases hx
  | cons y l ih =>
    have h : (f y >>= fun _ => l.forM f) = .ok () := h
    cases hy : f y with
    | error e =>
      rw [hy] at h
      cases h
    | ok u =>
      rw [hy] at h
      rcases List.mem_cons.mp hx with rfl | hx
      · exact hy
      · exact ih h hx

theorem good_new {summary : Summary} {options : IndexedReaderOptions}
    (h : newWithOptions summary options = .ok r) : Good r := by
  rw [newWithOptions] at h
  obtain ⟨⟨⟩, hoffsets, h⟩ := bind_eq_ok h
  obtain ⟨⟨⟩, -, h⟩ := bind_eq_ok h
  cases h
  refine ⟨fun c hc => ?_, fun k slot hslot => (by cases hslot), fun i hi => (by cases hi)⟩
  have hmem := (IndexedFile.sortChunks_perm options.order _).mem_iff.mp hc
  have hok := forall_of_forM hoffsets hmem
  cases hoff : c.compressedDataOffset with
  | ok off => exact ⟨off, rfl⟩
  | error e =>
    rw [hoff] at hok
    cases hok

/-- The readers that calls lead to, as long as none panics and those that fail are
clean. -/
inductive Leads (C : Codecs) (r : IndexedReader) : IndexedReader → Prop
  | refl : Leads C r r
  | call {s t : IndexedReader} {res : Res McapError (Option IndexedReadEvent)} (call : Call) :
      Leads C r s → call.run C s = (res, t) → res ≠ .panic →
      (∀ e, res = .err e → call.Clean C s) → Leads C r t

theorem good_run {call : Call} {res : Res McapError (Option IndexedReadEvent)} (h : Good r)
    (hrun : call.run C r = (res, s)) (hres : res ≠ .panic)
    (hclean : ∀ e, res = .err e → call.Clean C r) : Good s := by
  cases call with
  | next =>
    have hg := (good_nextEvent h).2
    rw [Call.run] at hrun
    rwa [hrun] at hg
  | insert offset data =>
    rw [Call.run, Exec.bind_run] at hrun
    rcases hins : insertChunkRecordData C offset data r with ⟨a | e | _, t⟩ <;>
      rw [hins] at hrun <;> cases hrun
    · exact good_insert h hins
    · exact h.of_agree (agree_of_error h (hclean e rfl) hins)
    · exact absurd rfl hres

theorem Leads.good (hl : Leads C r s) (h : Good r) : Good s := by
  induction hl with
  | refl => exact h
  | call call _ hrun hres hclean ih => exact good_run ih hrun hres hclean

/-- **A failed insertion leaves no trace**: after clean calls, a clean insertion that
fails does not change what any later calls return, and along clean calls no later
`next_event` panics. -/
theorem insert_error_atomic {C : Codecs} {summary : Summary} {options : IndexedReaderOptions}
    {r₀ r' : IndexedReader} {offset : UInt64} {data : Bytes} {e : McapError}
    (hnew : newWithOptions summary options = .ok r₀) (hl : Leads C r₀ r)
    (hrun : insertChunkRecordData C offset data r = (.err e, r'))
    (hclean : (Call.insert offset data).Clean C r) :
    (∀ calls, events C calls r' = events C calls r) ∧
      ∀ s, Leads C r' s → (nextEvent s).1 ≠ .panic := by
  have hg := hl.good (good_new hnew)
  have ha := agree_of_error hg hclean hrun
  exact ⟨fun calls => agree_events C calls ha,
    fun s hs => (good_nextEvent (hs.good (hg.of_agree ha))).1⟩

/-! ## A chunk that is cut off -/

/-- A message at log time 1. -/
def firstMessage : Bytes := frames (timesRecords [1])

/-- The summary of a file with one chunk of this size, which is not compressed. -/
def oneChunk (size : UInt64) : Summary where
  stats := none
  channels := ∅
  schemas := ∅
  chunkIndexes :=
    [{ messageStartTime := 1, messageEndTime := 1, chunkStartOffset := 8, chunkLength := 49 + size
       messageIndexOffsets := ∅, messageIndexLength := 0, compression := ""
       compressedSize := size, uncompressedSize := size }]
  attachmentIndexes := []
  metadataIndexes := []

/-- A new reader of it. -/
def oneChunkReader (size : UInt64) : IndexedReader where
  chunkIndexes := (oneChunk size).chunkIndexes
  curChunkIndex := 0
  chunkSlots := []
  messageIndexes := []
  curMessageIndex := 0
  order := .logTime
  filter := { start := none, stop := none, channelIds := [] }
  recordLengthLimit := none

/-- A chunk that is cut off in its first record. -/
theorem insert_error_atomic_cut :
    newWithOptions (oneChunk 1) {} = .ok (oneChunkReader 1) ∧
      (insertChunkRecordData noCodecs 57 [5] (oneChunkReader 1)).1 = .err .unexpectedEoc ∧
      ∀ calls, events noCodecs calls (insertChunkRecordData noCodecs 57 [5] (oneChunkReader 1)).2 =
        events noCodecs calls (oneChunkReader 1) := by
  have hrun : insertChunkRecordData noCodecs 57 [5] (oneChunkReader 1) =
      (.err .unexpectedEoc, (insertChunkRecordData noCodecs 57 [5] (oneChunkReader 1)).2) := by
    refine Prod.ext ?_ rfl
    decide +kernel
  have hnew : newWithOptions (oneChunk 1) {} = .ok (oneChunkReader 1) := rfl
  refine ⟨hnew, congrArg Prod.fst hrun, (insert_error_atomic hnew .refl hrun ?_).1⟩
  intro i c buf hfind hlen hdec records tail hbuf _ _ body header cur hmem
  -- one byte holds no record
  have hbuf1 : buf.length ≤ 1 := by
    cases (show findChunk 57 (oneChunkReader 1).uninserted = .ok (some (0, _)) from rfl).symm.trans
      hfind
    cases (show decode noCodecs "" 1 [5] = .ok [5] from rfl).symm.trans hdec
    exact Nat.le_refl _
  obtain ⟨pre, post, rfl⟩ := List.append_of_mem hmem
  rw [hbuf] at hbuf1
  simp at hbuf1
  omega

/-- **A trace of a failed insertion**: the chunk holds a message and then a record that
is cut off.  The insertion fails, and the next event is a panic and not the request for
the chunk. -/
theorem insert_error_spoilt :
    newWithOptions (oneChunk 32) {} = .ok (oneChunkReader 32) ∧
      (insertChunkRecordData noCodecs 57 (firstMessage ++ [5]) (oneChunkReader 32)).1 =
        .err .unexpectedEoc ∧
      events noCodecs [.next] (oneChunkReader 32) = [.ok (some (.readChunkRequest 57 32))] ∧
      events noCodecs [.next] (insertChunkRecordData noCodecs 57 (firstMessage ++ [5])
        (oneChunkReader 32)).2 = [.panic] := by
  refine ⟨rfl, ?_, ?_, ?_⟩ <;> decide +kernel

end IndexedReader
end Mcap

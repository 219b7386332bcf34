import Mcap.GoSafety

/-! # The indexed iterator does not panic on sound chunks

The iterator keeps the buffers of chunks in slots, and message indexes point into them.  A slot is
given to another chunk when none of its messages is left to be yielded: `Backed` says that every
message index that is left points at a whole record in the buffer of its slot, and that the slot
counts them.  So it is enough to look at each chunk when it is loaded (`Loadable`).

At the end all readers are put together.
-/
namespace Mcap
namespace Go

@[simp] theorem Slice.bytes_of (bytes : Bytes) : (Slice.of bytes).bytes = bytes := List.take_length

namespace IndexedMessageIterator

/-! ## Slots -/

/-- The message indexes that are left to be read. -/
def unread (it : IndexedMessageIterator) : List MessageIndexWithChunkSlot :=
  it.messageIndexes.drop it.curMessageIndex

/-- A message index points at a record in the buffer of its slot. -/
def InSlot (slots : List ChunkSlot) (e : MessageIndexWithChunkSlot) : Prop :=
  ∃ slot, slots[e.chunkSlotIndex]? = some slot ∧ messageBytes slot.buf e.offset ≠ .panic

/-- **The slots behind the message indexes that are left.** -/
structure Backed (slots : List ChunkSlot) (unread : List MessageIndexWithChunkSlot) : Prop where
  inSlot : ∀ e ∈ unread, InSlot slots e
  counted : ∀ (i : Nat) (slot : ChunkSlot), slots[i]? = some slot →
    unread.countP (fun e => e.chunkSlotIndex = i) = slot.unreadMessages

section
variable {slots : List ChunkSlot} {unread unread' : List MessageIndexWithChunkSlot} {i : Nat}
  {slot : ChunkSlot} {e : MessageIndexWithChunkSlot}

theorem Backed.perm (h : Backed slots unread) (hperm : unread'.Perm unread) :
    Backed slots unread' where
  inSlot e he := h.inSlot e (hperm.mem_iff.mp he)
  counted i slot hslot := (hperm.countP_eq _).trans (h.counted i slot hslot)

theorem Backed.ne_of_free (h : Backed slots unread) (hslot : slots[i]? = some slot)
    (hfree : slot.unreadMessages = 0) : ∀ e ∈ unread, e.chunkSlotIndex ≠ i := by
  intro e he heq
  have hcount := (h.counted i slot hslot).trans hfree
  exact List.countP_eq_zero.mp hcount e he (decide_eq_true heq)

theorem Backed.addSlot (h : Backed slots unread) (buf : Slice) :
    Backed (slots ++ [⟨buf, 0⟩]) unread where
  inSlot e he := by
    obtain ⟨slot, hslot, hmessage⟩ := h.inSlot e he
    have hlt := (List.getElem?_eq_some_iff.mp hslot).1
    exact ⟨slot, (List.getElem?_append_left hlt).trans hslot, hmessage⟩
  counted i slot hslot := by
    rcases Nat.lt_or_ge i slots.length with hlt | hge
    · rw [List.getElem?_append_left hlt] at hslot
      exact h.counted i slot hslot
    · have hi : i = slots.length := by
        have hlt := (List.getElem?_eq_some_iff.mp hslot).1
        rw [List.length_append, List.length_singleton] at hlt
        omega
      subst hi
      rw [List.getElem?_append_right (Nat.le_refl _), Nat.sub_self] at hslot
      cases hslot
      refine List.countP_eq_zero.mpr fun e he heq => ?_
      obtain ⟨slot, hslot, -⟩ := h.inSlot e he
      have hlt := (List.getElem?_eq_some_iff.mp hslot).1
      rw [of_decide_eq_true heq] at hlt
      omega

theorem Backed.setBuf (h : Backed slots unread) (hslot : slots[i]? = some slot)
    (hfree : slot.unreadMessages = 0) (buf : Slice) :
    Backed (slots.modify i fun slot => { slot with buf }) unread where
  inSlot e he := by
    obtain ⟨slot', hslot', hmessage⟩ := h.inSlot e he
    refine ⟨slot', ?_, hmessage⟩
    rw [List.getElem?_modify_ne _ _ (h.ne_of_free hslot hfree e he).symm]
    exact hslot'
  counted j slot' hslot' := by
    by_cases hij : i = j
    · subst hij
      rw [List.getElem?_modify_eq, hslot] at hslot'
      cases hslot'
      exact h.counted i slot hslot
    · rw [List.getElem?_modify_ne _ _ hij] at hslot'
      exact h.counted j slot' hslot'

theorem inSlot_modify (h : InSlot slots e) (i : Nat) (f : Nat → Nat) :
    InSlot (slots.modify i fun slot => { slot with unreadMessages := f slot.unreadMessages }) e := by
  obtain ⟨slot, hslot, hmessage⟩ := h
  by_cases hi : i = e.chunkSlotIndex
  · refine ⟨{ slot with unreadMessages := f slot.unreadMessages }, ?_, hmessage⟩
    rw [hi, List.getElem?_modify_eq, hslot]
    rfl
  · refine ⟨slot, ?_, hmessage⟩
    rw [List.getElem?_modify_ne _ _ hi]
    exact hslot

theorem Backed.add (h : Backed slots unread) (he : InSlot slots e) :
    Backed (slots.modify e.chunkSlotIndex fun slot =>
      { slot with unreadMessages := slot.unreadMessages + 1 }) (unread ++ [e]) where
  inSlot e' he' := by
    have hold : InSlot slots e' := by
      rcases List.mem_append.mp he' with hmem | hmem
      · exact h.inSlot e' hmem
      · rw [List.mem_singleton.mp hmem]
        exact he
    exact inSlot_modify hold _ (· + 1)
  counted j slot' hslot' := by
    rw [List.countP_append]
    by_cases hj : e.chunkSlotIndex = j
    · obtain ⟨slot, hslot, -⟩ := he
      rw [← hj, List.getElem?_modify_eq, hslot] at hslot'
      cases hslot'
      rw [← hj, h.counted _ slot hslot]
      simp
    · rw [List.getElem?_modify_ne _ _ hj] at hslot'
      rw [h.counted j slot' hslot']
      simp [hj]

theorem Backed.yield (h : Backed slots (e :: unread)) :
    Backed (slots.modify e.chunkSlotIndex fun slot =>
      { slot with unreadMessages := slot.unreadMessages - 1 }) unread where
  inSlot e' he' := inSlot_modify (h.inSlot e' (List.mem_cons_of_mem _ he')) _ (· - 1)
  counted j slot' hslot' := by
    by_cases hj : e.chunkSlotIndex = j
    · obtain ⟨slot, hslot, -⟩ := h.inSlot e List.mem_cons_self
      rw [← hj, List.getElem?_modify_eq, hslot] at hslot'
      cases hslot'
      have hcount := h.counted _ slot hslot
      simp only [List.countP_cons, decide_true, if_true] at hcount
      rw [← hj]
      show _ = slot.unreadMessages - 1
      omega
    · rw [List.getElem?_modify_ne _ _ hj] at hslot'
      have hcount := h.counted j slot' hslot'
      rwa [List.countP_cons_of_neg (by simpa using hj)] at hcount

end

/-! ## Rules -/

/-- No panic; `I` is kept, and `Q` holds where the method succeeds. -/
abbrev Keeps {σ α : Type} (I P : σ → Prop) (x : Exec σ Error α) (Q : α → σ → Prop) : Prop :=
  Exec.Ensures (fun s => I s ∧ P s) x fun r s => r ≠ .panic ∧ I s ∧ ∀ a, r = .ok a → Q a s

section
variable {σ α β : Type} {I P : σ → Prop} {x : Exec σ Error α} {M : α → σ → Prop}
  {f : α → Exec σ Error β} {Q : β → σ → Prop}

theorem keeps_bind (hx : Keeps I P x M) (hf : ∀ a, Keeps I (M a) (f a) Q) :
    Keeps I P (x >>= f) Q := by
  refine Exec.Ensures.bind hx (fun a => ?_) (fun e s h => ⟨err_ne_panic e, h.2.1, by rintro _ ⟨⟩⟩)
    fun s h => absurd rfl h.1
  exact (hf a).mono (fun s h => ⟨h.2.1, h.2.2 a rfl⟩) fun _ _ h => h

theorem keeps_of_fact {φ : Prop} (h : φ → Keeps I (fun _ => True) x M) : Keeps I (fun _ => φ) x M :=
  fun s hs => h hs.2 s ⟨hs.1, trivial⟩

theorem keeps_get {f : σ → Exec σ Error β}
    (h : ∀ s, I s → P s → ∃ P' : σ → Prop, P' s ∧ Keeps I P' (f s) Q) :
    Keeps I P (Exec.get >>= f) Q := by
  refine Exec.Ensures.get_bind fun s hs => ?_
  obtain ⟨P', hP', hkeeps⟩ := h s hs.1 hs.2
  exact hkeeps s ⟨hs.1, hP'⟩

theorem keeps_calm (hx : Calm I x) : Keeps I P x fun _ _ => True :=
  fun s h => ⟨(hx s h.1).1, (hx s h.1).2, fun _ _ => trivial⟩

theorem keeps_pure {a : α} {Q : α → σ → Prop} (h : ∀ s, P s → Q a s) :
    Keeps I P (pure a : Exec σ Error α) Q := by
  refine fun s hs => ⟨ok_ne_panic a, hs.1, fun a' heq => ?_⟩
  cases heq
  exact h s hs.2

theorem keeps_modify {g : σ → σ} {Q : Unit → σ → Prop} (h : ∀ s, I s → P s → I (g s) ∧ Q () (g s)) :
    Keeps I P (Exec.modify g : Exec σ Error Unit) Q :=
  fun s hs => ⟨ok_ne_panic (), (h s hs.1 hs.2).1, fun _ _ => (h s hs.1 hs.2).2⟩

end

/-! ## Loading a chunk -/

/-- What holds of an iterator over a file that has come to the chunk index `k`. -/
structure Sound (file : Bytes) (chunkIndexes : List ChunkIndex) (k : Nat)
    (it : IndexedMessageIterator) : Prop where
  file_eq : it.file = file
  chunkIndexes_eq : it.chunkIndexes = chunkIndexes
  curChunk_eq : it.curChunkIndex = k
  size_le : it.fileSize ≤ file.length
  cur_le : it.curMessageIndex ≤ it.messageIndexes.length
  backed : Backed it.chunkSlots it.unread

/-- The record of a chunk in a file, without its header. -/
def chunkBody (file : Bytes) (idx : ChunkIndex) : Bytes :=
  ((file.drop idx.chunkStartOffset.toNat).take idx.chunkLength.toNat).drop 9

/-- The records of a chunk of which the fields are in `body`. -/
def recordsOf (body : Bytes) (name : Nat) : Bytes :=
  (body.drop (40 + name)).take (Lexer.headOf body name).recordsLength

/-- **A chunk that can be loaded**: its index announces what can be allocated and is a record, the
chunk has its records, its buffer can be allocated, and the decoder fills it. -/
structure Loadable (rt : Runtime) (file : Bytes) (idx : ChunkIndex) : Prop where
  alloc : idx.chunkStartOffset.toNat < file.length →
    idx.chunkLength.toNat ≤ rt.grow idx.chunkLength.toNat ∧
      rt.grow idx.chunkLength.toNat ≤ rt.maxAlloc
  header : idx.chunkStartOffset.toNat + idx.chunkLength.toNat ≤ file.length →
    9 ≤ idx.chunkLength.toNat
  records : idx.chunkStartOffset.toNat + idx.chunkLength.toNat ≤ file.length →
    RecordsFit (.of (chunkBody file idx))
  size : idx.chunkStartOffset.toNat + idx.chunkLength.toNat ≤ file.length →
    ∀ name, ofLe (((chunkBody file idx).drop 28).take 4) = name →
      40 + name ≤ (chunkBody file idx).length →
      (Lexer.headOf (chunkBody file idx) name).uncompressedSize ≤ rt.maxAlloc
  output : idx.chunkStartOffset.toNat + idx.chunkLength.toNat ≤ file.length →
    ∀ name, ofLe (((chunkBody file idx).drop 28).take 4) = name →
      40 + name ≤ (chunkBody file idx).length →
      (Lexer.headOf (chunkBody file idx) name).compression = utf8 "zstd" →
      ∀ dst, (rt.decodeAll (recordsOf (chunkBody file idx) name) dst).2 = none →
        (Lexer.headOf (chunkBody file idx) name).uncompressedSize ≤
          (rt.decodeAll (recordsOf (chunkBody file idx) name) dst).1.len

section
variable {file : Bytes} {chunkIndexes : List ChunkIndex} {k : Nat} {rt : Runtime} {idx : ChunkIndex}

theorem Sound.of_fields {it it' : IndexedMessageIterator} (h : Sound file chunkIndexes k it)
    (hfile : it'.file = it.file) (hindexes : it'.chunkIndexes = it.chunkIndexes)
    (hcurChunk : it'.curChunkIndex = it.curChunkIndex) (hsize : it'.fileSize = it.fileSize) (hslots : it'.chunkSlots = it.chunkSlots)
    (hmessages : it'.messageIndexes = it.messageIndexes)
    (hcur : it'.curMessageIndex = it.curMessageIndex) : Sound file chunkIndexes k it' where
  file_eq := hfile.trans h.file_eq
  chunkIndexes_eq := hindexes.trans h.chunkIndexes_eq
  curChunk_eq := hcurChunk.trans h.curChunk_eq
  size_le := hsize ▸ h.size_le
  cur_le := by
    rw [hmessages, hcur]
    exact h.cur_le
  backed := by
    unfold unread
    rw [hmessages, hcur, hslots]
    exact h.backed

theorem parseChunk_spec (buf : Slice) (hfit : RecordsFit (.of buf.bytes)) :
    parseChunk buf ≠ .panic ∧ ∀ c, parseChunk buf = .ok c →
      ∃ name, ofLe ((buf.bytes.drop 28).take 4) = name ∧ 40 + name ≤ buf.bytes.length ∧
        c.uncompressedSize = (Lexer.headOf buf.bytes name).uncompressedSize ∧
        c.compression = (Lexer.headOf buf.bytes name).compression ∧
        c.records = recordsOf buf.bytes name := by
  have hle := buf.le
  have hlen := buf.length_bytes
  unfold RecordsFit at hfit
  simp only [Slice.bytes_of] at hfit
  constructor
  · intro hpanic
    refine (parseChunk_panic_iff buf).mp hpanic fun hname => ?_
    obtain ⟨hlt, hcap⟩ := hfit (by show _ ≤ buf.bytes.length; omega)
    refine ⟨hlt, ?_⟩
    change _ ≤ buf.bytes.length at hcap
    unfold Slice.cap
    omega
  · intro c hc
    obtain ⟨name, hname⟩ : ∃ n, ofLe ((buf.bytes.drop 28).take 4) = n := ⟨_, rfl⟩
    obtain ⟨length, hlength⟩ : ∃ n, ofLe ((buf.bytes.drop (32 + name)).take 8) = n := ⟨_, rfl⟩
    rw [hname, hlength] at hfit
    obtain ⟨hin, hok⟩ := (parseChunk_eq (by rintro e ⟨⟩) hname hlength).mp hc
    obtain ⟨hlt, hcap⟩ := hfit (by show _ ≤ buf.bytes.length; omega)
    change _ ≤ buf.bytes.length at hcap
    rw [if_pos ⟨hlt, by unfold Slice.cap; omega⟩] at hok
    cases hok
    refine ⟨name, hname, by omega, rfl, rfl, ?_⟩
    show (buf.array.drop (40 + name)).take length =
      (buf.bytes.drop (40 + name)).take (ofLe ((buf.bytes.drop (32 + name)).take 8))
    rw [hlength]
    unfold Slice.bytes
    rw [List.drop_take, List.take_take, Nat.min_eq_left (by omega)]

theorem upTo_eq_some {s s' : Slice} {n : Nat} (h : s.upTo n = some s') : s'.len = n := by
  unfold Slice.upTo at h
  split at h
  · cases h
    rfl
  · cases h

theorem length_readAt (file : Bytes) (pos n : Nat) :
    (readAt file pos n).2 = none → (readAt file pos n).1.length = n ∧
      (readAt file pos n).1 = (file.drop pos).take n ∧ (n = 0 ∨ pos + n ≤ file.length) := by
  intro h
  unfold readAt at h ⊢
  have hlen : ((file.drop pos).take n).length = n := by
    by_contra hne
    simp only [if_neg hne] at h
    cases h
  refine ⟨hlen, rfl, ?_⟩
  rw [List.length_take, List.length_drop] at hlen
  omega

theorem bytes_fill {s : Slice} {bytes : Bytes} (h : s.len = bytes.length) :
    (s.fill bytes).bytes = bytes := by
  have hle := s.le
  show (bytes.take s.array.length ++ s.array.drop bytes.length).take s.len = bytes
  have htake : bytes.take s.array.length = bytes := List.take_of_length_le (by omega)
  rw [htake, h, List.take_left]

theorem seekTo_spec (it : IndexedMessageIterator) (offset : UInt64) :
    seekTo offset it = (.ok offset.toNat, it) ∧ offset.toNat < it.fileSize ∨
      ∃ e, seekTo offset it = (.err e, it) := by
  unfold seekTo
  rw [Exec.bind_ok (Exec.get_run it)]
  split
  · exact .inr ⟨_, rfl⟩
  · split
    · exact .inr ⟨_, rfl⟩
    · exact .inl ⟨rfl, by omega⟩

/-- What is known of the chunk that was read. -/
def ChunkRead (rt : Runtime) (c : Chunk) : Prop :=
  c.uncompressedSize < 2 ^ 64 ∧ c.uncompressedSize ≤ rt.maxAlloc ∧
    (c.compression = utf8 "zstd" → ∀ dst, (rt.decodeAll c.records dst).2 = none →
      c.uncompressedSize ≤ (rt.decodeAll c.records dst).1.len)

theorem chunkRead_of_loadable (h : Loadable rt file idx) {buf : Slice} {c : Chunk}
    (hend : idx.chunkStartOffset.toNat + idx.chunkLength.toNat ≤ file.length)
    (hbytes : buf.bytes = chunkBody file idx) (hc : parseChunk buf = .ok c) : ChunkRead rt c := by
  obtain ⟨-, hspec⟩ := parseChunk_spec buf (hbytes ▸ h.records hend)
  obtain ⟨name, hname, hlen, hsize, hcompression, hrecords⟩ := hspec c hc
  rw [hbytes] at hname hlen hsize hcompression hrecords
  refine ⟨?_, ?_, fun hzstd => ?_⟩
  · rw [hsize]
    exact ofLe_take_lt _ 8
  · rw [hsize]
    exact h.size hend name hname hlen
  · rw [hsize, hrecords]
    rw [hcompression] at hzstd
    exact h.output hend name hname hlen hzstd

theorem keeps_seekTo (offset : UInt64) :
    Keeps (Sound file chunkIndexes k) (fun _ => True) (seekTo offset)
      fun pos _ => pos = offset.toNat ∧ offset.toNat < file.length := by
  intro it h
  rcases seekTo_spec it offset with ⟨hseek, hlt⟩ | ⟨e, hseek⟩
  · rw [hseek]
    refine ⟨ok_ne_panic _, h.1, fun pos heq => ?_⟩
    cases heq
    exact ⟨rfl, hlt.trans_le h.1.size_le⟩
  · rw [hseek]
    exact ⟨err_ne_panic _, h.1, by rintro _ ⟨⟩⟩

theorem Sound.setRecordBuf {it : IndexedMessageIterator} (h : Sound file chunkIndexes k it)
    (buf : Slice) : Sound file chunkIndexes k { it with recordBuf := buf } :=
  h.of_fields rfl rfl rfl rfl rfl rfl rfl

theorem keeps_resizeRecordBuf {n : Nat}
    (halloc : n ≤ rt.grow n ∧ rt.grow n ≤ rt.maxAlloc) :
    Keeps (Sound file chunkIndexes k) (fun _ => True) (resizeRecordBuf rt n)
      fun _ it => it.recordBuf.len = n := by
  refine Exec.Ensures.get_bind fun it ⟨h, _⟩ => ?_
  cases hup : it.recordBuf.upTo n with
  | some buf =>
    exact ⟨ok_ne_panic _, h.setRecordBuf buf, fun _ _ => upTo_eq_some hup⟩
  | none =>
    simp only
    rw [if_neg (by omega)]
    exact ⟨ok_ne_panic _, h.setRecordBuf _, fun _ _ => rfl⟩

theorem keeps_fillRecordBuf (pos n : Nat) :
    Keeps (Sound file chunkIndexes k) (fun it => it.recordBuf.len = n) (fillRecordBuf pos n)
      fun _ it => (n = 0 ∨ pos + n ≤ file.length) ∧ it.recordBuf.bytes = (file.drop pos).take n ∧
        it.recordBuf.len = n := by
  refine Exec.Ensures.get_bind fun it ⟨h, hlen⟩ => ?_
  have hfill := h.setRecordBuf (it.recordBuf.fill (readAt it.file pos n).1)
  rw [Exec.bind_ok (Exec.modify_run _ _)]
  cases herr : (readAt it.file pos n).2 with
  | some e => exact ⟨err_ne_panic _, hfill, by rintro _ ⟨⟩⟩
  | none =>
    obtain ⟨hn, hbytes, hend⟩ := length_readAt _ _ _ herr
    refine ⟨ok_ne_panic _, hfill, fun _ _ => ⟨?_, ?_, hlen⟩⟩
    · rwa [h.file_eq] at hend
    · show (it.recordBuf.fill _).bytes = _
      rw [bytes_fill (by omega), hbytes, h.file_eq]

theorem keeps_readChunk (h : Loadable rt file idx) :
    Keeps (Sound file chunkIndexes k) (fun _ => True) (readChunk rt idx) fun c _ => ChunkRead rt c := by
  refine keeps_bind (keeps_seekTo idx.chunkStartOffset) fun pos => keeps_of_fact ?_
  rintro ⟨rfl, hlt⟩
  refine keeps_bind (keeps_resizeRecordBuf (h.alloc hlt)) fun _ => ?_
  refine keeps_bind (keeps_fillRecordBuf idx.chunkStartOffset.toNat _) fun _ => ?_
  refine Exec.Ensures.get_bind fun it ⟨hsound, hread⟩ => ?_
  obtain ⟨hend, hbytes, hlen⟩ := hread
  have hwhole : idx.chunkStartOffset.toNat + idx.chunkLength.toNat ≤ file.length := by omega
  have hnine := h.header hwhole
  have hle := it.recordBuf.le
  cases hbuf : it.recordBuf.behind 9 with
  | none =>
    unfold Slice.behind at hbuf
    rw [dif_pos (by omega)] at hbuf
    cases hbuf
  | some buf =>
    have hbody : buf.bytes = chunkBody file idx := by
      unfold Slice.behind at hbuf
      rw [dif_pos (by omega)] at hbuf
      cases hbuf
      unfold chunkBody
      rw [← hbytes]
      unfold Slice.bytes
      rw [List.drop_take]
    obtain ⟨hpanic, -⟩ := parseChunk_spec buf (hbody ▸ h.records hwhole)
    refine ⟨wrap_ne_panic hpanic, hsound, fun c hc => ?_⟩
    have hparse : parseChunk buf = .ok c := by
      change wrap _ (parseChunk buf) = .ok c at hc
      cases hp : parseChunk buf with
      | ok c' =>
        rw [hp] at hc
        exact hc
      | err e =>
        rw [hp] at hc
        cases hc
      | panic => exact absurd hp hpanic
    exact chunkRead_of_loadable h hwhole hbody hparse

/-- A slot without unread messages. -/
def FreeSlot (i : Nat) (it : IndexedMessageIterator) : Prop :=
  ∃ slot, it.chunkSlots[i]? = some slot ∧ slot.unreadMessages = 0

/-- A slot whose buffer has a number of bytes. -/
def Filled (i size : Nat) (it : IndexedMessageIterator) : Prop :=
  ∃ slot, it.chunkSlots[i]? = some slot ∧ size ≤ slot.buf.len

theorem keeps_takeSlot :
    Keeps (Sound file chunkIndexes k) (fun _ => True) takeSlot fun i => FreeSlot i := by
  refine Exec.Ensures.get_bind fun it ⟨h, _⟩ => ?_
  obtain ⟨i, hi⟩ : ∃ i, (it.chunkSlots.findIdx fun slot => slot.unreadMessages = 0) = i := ⟨_, rfl⟩
  simp only [hi]
  by_cases hnew : i = it.chunkSlots.length
  · rw [Exec.bind_ok (Exec.modify_run _ _), if_pos hnew]
    refine ⟨ok_ne_panic _, ⟨h.file_eq, h.chunkIndexes_eq, h.curChunk_eq, h.size_le, h.cur_le, h.backed.addSlot _⟩,
      fun j heq => ?_⟩
    cases heq
    refine ⟨⟨.empty, 0⟩, ?_, rfl⟩
    show (it.chunkSlots ++ [_])[i]? = _
    rw [hnew, List.getElem?_append_right (Nat.le_refl _), Nat.sub_self]
    rfl
  · rw [Exec.bind_ok (Exec.modify_run _ _), if_neg hnew]
    refine ⟨ok_ne_panic _, h, fun j heq => ?_⟩
    cases heq
    have hle : i ≤ it.chunkSlots.length := hi ▸ List.findIdx_le_length
    have hlt : (it.chunkSlots.findIdx fun slot => slot.unreadMessages = 0) < it.chunkSlots.length := by
      omega
    have hfree := List.findIdx_getElem (w := hlt)
    refine ⟨it.chunkSlots[it.chunkSlots.findIdx fun slot => slot.unreadMessages = 0], ?_,
      of_decide_eq_true hfree⟩
    rw [← hi]
    exact List.getElem?_eq_getElem hlt

theorem roomFor_spec (old : Slice) {size : Nat} (h : size ≤ rt.maxAlloc) :
    ∃ buf, roomFor rt old size = some buf ∧ buf.len = size := by
  unfold roomFor
  cases hup : old.upTo size with
  | some buf => exact ⟨buf, rfl, upTo_eq_some hup⟩
  | none =>
    simp only
    rw [if_neg (by omega)]
    exact ⟨_, rfl, rfl⟩

theorem len_decompress {c : Chunk} (h : ChunkRead rt c) {buf : Slice}
    (hlen : buf.len = c.uncompressedSize) (hok : (decompress rt c buf).2 = none) :
    c.uncompressedSize ≤ (decompress rt c buf).1.len := by
  unfold decompress at hok ⊢
  by_cases hnone : c.compression = []
  · rw [if_pos hnone]
    exact hlen.ge
  · rw [if_neg hnone] at hok ⊢
    by_cases hzstd : c.compression = utf8 "zstd"
    · rw [if_pos hzstd] at hok ⊢
      exact h.2.2 hzstd buf (Option.map_eq_none_iff.mp hok)
    · rw [if_neg hzstd] at hok ⊢
      by_cases hlz4 : c.compression = utf8 "lz4"
      · rw [if_pos hlz4]
        exact hlen.ge
      · rw [if_neg hlz4] at hok
        cases hok

theorem keeps_fillSlot {c : Chunk} (hc : ChunkRead rt c) (i : Nat) :
    Keeps (Sound file chunkIndexes k) (FreeSlot i) (fillSlot rt i c) fun _ =>
      Filled i c.uncompressedSize := by
  refine Exec.Ensures.get_bind fun it ⟨h, hfree⟩ => ?_
  obtain ⟨slot, hslot, hunread⟩ := hfree
  obtain ⟨buf, hroom, hlen⟩ := roomFor_spec
    (((it.chunkSlots[i]?).map ChunkSlot.buf).getD .empty) hc.2.1
  simp only [hroom]
  have hset : Sound file chunkIndexes k { it with
      chunkSlots := it.chunkSlots.modify i fun slot => { slot with buf := (decompress rt c buf).1 } } :=
    ⟨h.file_eq, h.chunkIndexes_eq, h.curChunk_eq, h.size_le, h.cur_le, h.backed.setBuf hslot hunread _⟩
  unfold setBuf
  rw [Exec.bind_ok (Exec.modify_run _ _)]
  cases herr : (decompress rt c buf).2 with
  | some e => exact ⟨err_ne_panic _, hset, by rintro _ ⟨⟩⟩
  | none =>
    refine ⟨ok_ne_panic _, hset, fun _ _ => ⟨{ slot with buf := (decompress rt c buf).1 }, ?_, ?_⟩⟩
    · show (it.chunkSlots.modify i _)[i]? = _
      rw [List.getElem?_modify_eq, hslot]
      rfl
    · exact len_decompress hc hlen herr

end

/-! ## Indexing the messages of a chunk -/

theorem recordAt_spec {buf : Slice} {bufSize : Nat} (hlen : bufSize ≤ buf.len)
    (hlt : bufSize < 2 ^ 64) (offset : Nat) :
    recordAt buf bufSize offset ≠ .panic ∧ ∀ op content next,
      recordAt buf bufSize offset = .ok (op, content, next) →
        messageBytes buf offset = .ok content ∧ offset + 9 ≤ next ∧ next ≤ bufSize := by
  have hle := buf.le
  unfold recordAt
  by_cases hshort : bufSize < offset + 1 + 8
  · rw [if_pos hshort]
    exact ⟨err_ne_panic _, by rintro _ _ _ ⟨⟩⟩
  · rw [if_neg hshort]
    obtain ⟨bytes, hbytes⟩ : ∃ bytes, (buf.array.drop offset).take 9 = bytes := ⟨_, rfl⟩
    have hbetween : buf.between offset (offset + 1 + 8) = some bytes := by
      unfold Slice.between Slice.cap
      rw [if_pos (by omega), show offset + 1 + 8 - offset = 9 by omega, hbytes]
    obtain ⟨length, hlength⟩ : ∃ n, ofLe (bytes.drop 1) = n := ⟨_, rfl⟩
    simp only [hbetween, hlength]
    unfold checkedAdd
    by_cases hover : offset + 1 + 8 + length < 2 ^ 64
    · rw [if_pos hover]
      simp only
      by_cases hlong : bufSize < offset + 1 + 8 + length
      · rw [if_pos hlong]
        exact ⟨err_ne_panic _, by rintro _ _ _ ⟨⟩⟩
      · rw [if_neg hlong]
        obtain ⟨content, hcontent⟩ : ∃ content,
            buf.between (offset + 1 + 8) (offset + 1 + 8 + length) = some content := by
          unfold Slice.between Slice.cap
          rw [if_pos (by omega)]
          exact ⟨_, rfl⟩
        rw [hcontent]
        refine ⟨ok_ne_panic _, fun op content' next heq => ?_⟩
        cases heq
        refine ⟨?_, by omega, by omega⟩
        -- the length is read from the same bytes
        have hfield : ∀ s, buf.behind (offset + 1) = some s → ofLe (s.bytes.take 8) = length := by
          intro s hs
          unfold Slice.behind at hs
          rw [dif_pos (by omega)] at hs
          cases hs
          show ofLe (((buf.array.drop (offset + 1)).take (buf.len - (offset + 1))).take 8) = _
          rw [← hlength, ← hbytes, List.take_take, Nat.min_eq_left (by omega), List.drop_take,
            List.drop_drop]
        unfold messageBytes checkedAdd
        rw [if_pos (by omega)]
        cases hbehind : buf.behind (offset + 1) with
        | none =>
          unfold Slice.behind at hbehind
          rw [dif_pos (by omega)] at hbehind
          cases hbehind
        | some s =>
          have hs : s.len = buf.len - (offset + 1) := by
            unfold Slice.behind at hbehind
            rw [dif_pos (by omega)] at hbehind
            cases hbehind
            rfl
          simp only [hfield s hbehind]
          rw [if_neg (by omega), if_pos (by omega)]
          simp only
          rw [show offset + (1 + 8) = offset + 1 + 8 by omega, hcontent]
    · rw [if_neg hover]
      exact ⟨err_ne_panic _, by rintro _ _ _ ⟨⟩⟩

section
variable {file : Bytes} {chunkIndexes : List ChunkIndex} {k : Nat} {rt : Runtime} {idx : ChunkIndex}
  {it : IndexedMessageIterator}

theorem sound_addMessageIndex (h : Sound file chunkIndexes k it) {i offset : Nat} {slot : ChunkSlot}
    (hslot : it.chunkSlots[i]? = some slot) (hmessage : messageBytes slot.buf offset ≠ .panic)
    (timestamp : UInt64) : Sound file chunkIndexes k (addMessageIndex i offset timestamp it) where
  file_eq := h.file_eq
  chunkIndexes_eq := h.chunkIndexes_eq
  curChunk_eq := h.curChunk_eq
  size_le := h.size_le
  cur_le := by
    show it.curMessageIndex ≤ (it.messageIndexes ++ [_]).length
    rw [List.length_append]
    exact h.cur_le.trans (Nat.le_add_right _ _)
  backed := by
    show Backed (it.chunkSlots.modify i _) ((it.messageIndexes ++ [_]).drop it.curMessageIndex)
    rw [List.drop_append_of_le_length h.cur_le]
    exact h.backed.add (e := ⟨timestamp, offset, i⟩) ⟨slot, hslot, hmessage⟩

theorem filled_addMessageIndex {i size offset : Nat} (h : Filled i size it) (timestamp : UInt64) :
    Filled i size (addMessageIndex i offset timestamp it) := by
  obtain ⟨slot, hslot, hlen⟩ := h
  refine ⟨{ slot with unreadMessages := slot.unreadMessages + 1 }, ?_, hlen⟩
  show (it.chunkSlots.modify i _)[i]? = _
  rw [List.getElem?_modify_eq, hslot]
  rfl

/-- The message indexes from `n` on are those of the chunk in a slot. -/
structure Indexing (n i size : Nat) (it : IndexedMessageIterator) : Prop where
  filled : Filled i size it
  cur_le : it.curMessageIndex ≤ n
  le : n ≤ it.messageIndexes.length

theorem Indexing.add {n i size : Nat} (h : Indexing n i size it) (offset : Nat)
    (timestamp : UInt64) :
    Indexing n i size (addMessageIndex i offset timestamp it) where
  filled := filled_addMessageIndex h.filled timestamp
  cur_le := h.cur_le
  le := by
    show n ≤ (it.messageIndexes ++ [_]).length
    rw [List.length_append]
    exact h.le.trans (Nat.le_add_right _ _)

theorem keeps_indexMessages {n i size : Nat} (hlt : size < 2 ^ 64) (fuel offset : Nat)
    (maxLogTime : UInt64) (sortingRequired : Bool) :
    Keeps (Sound file chunkIndexes k) (Indexing n i size)
      (indexMessages i size fuel offset maxLogTime sortingRequired) fun _ => Indexing n i size := by
  induction fuel generalizing offset maxLogTime sortingRequired with
  | zero => exact keeps_pure fun _ h => h
  | succ fuel ih =>
    unfold indexMessages
    split
    · refine Exec.Ensures.get_bind fun it ⟨h, hindexing⟩ => ?_
      obtain ⟨slot, hslot, hlen⟩ := hindexing.filled
      have hbuf : ((it.chunkSlots[i]?).map ChunkSlot.buf).getD .empty = slot.buf := by
        rw [hslot]
        rfl
      obtain ⟨hpanic, hok⟩ := recordAt_spec hlen hlt offset
      rw [hbuf]
      rcases hrecord : recordAt slot.buf size offset with ⟨op, content, next⟩ | e | _
      · obtain ⟨hbytes, -, -⟩ := hok op content next hrecord
        rw [Exec.lift_ok_bind]
        simp only
        split
        · rcases hmsg : wrap "could not parse message in chunk" (parseMessage content) with
            msg | e | _
          · rw [Exec.lift_ok_bind]
            split
            · rw [Exec.bind_ok (Exec.modify_run _ _)]
              have hadd := sound_addMessageIndex h hslot (hbytes ▸ ok_ne_panic content) msg.logTime
              have hindexing' := hindexing.add offset msg.logTime
              split
              · exact ih _ _ _ _ ⟨hadd, hindexing'⟩
              · exact ih _ _ _ _ ⟨hadd, hindexing'⟩
            · exact ih _ _ _ it ⟨h, hindexing⟩
          · exact ⟨err_ne_panic e, h, by rintro _ ⟨⟩⟩
          · exact absurd hmsg (wrap_ne_panic (parseMessage_ne_panic content))
        · exact ih _ _ _ it ⟨h, hindexing⟩
      · exact ⟨err_ne_panic e, h, by rintro _ ⟨⟩⟩
      · exact absurd hrecord hpanic
    · exact keeps_pure fun _ h => h

theorem keeps_truncate {P : IndexedMessageIterator → Prop}
    (hP : ∀ it messageIndexes cur, P it →
      P { it with messageIndexes := messageIndexes, curMessageIndex := cur }) :
    Keeps (Sound file chunkIndexes k) P truncate fun _ => P := by
  refine Exec.Ensures.get_bind fun it ⟨h, hp⟩ => ?_
  split
  · rename_i hall
    have hnil : it.unread = [] := by
      unfold unread
      rw [hall, List.drop_length]
    refine ⟨ok_ne_panic _, ⟨h.file_eq, h.chunkIndexes_eq, h.curChunk_eq, h.size_le, Nat.le_refl _, ?_⟩,
      fun _ _ => hP it [] 0 hp⟩
    have hbacked := h.backed
    rw [hnil] at hbacked
    exact hbacked
  · exact ⟨ok_ne_panic _, h, fun _ _ => hp⟩

theorem Sound.reorder {messageIndexes sorted : List MessageIndexWithChunkSlot}
    (h : Sound file chunkIndexes k it)
    (hsplit : messageIndexes = it.messageIndexes.take it.curMessageIndex ++ sorted)
    (hperm : sorted.Perm it.unread) :
    Sound file chunkIndexes k { it with messageIndexes := messageIndexes } := by
  have hlen : (it.messageIndexes.take it.curMessageIndex).length = it.curMessageIndex := by
    rw [List.length_take]
    exact Nat.min_eq_left h.cur_le
  refine ⟨h.file_eq, h.chunkIndexes_eq, h.curChunk_eq, h.size_le, ?_, ?_⟩
  · show it.curMessageIndex ≤ messageIndexes.length
    rw [hsplit, List.length_append]
    omega
  · show Backed it.chunkSlots (messageIndexes.drop it.curMessageIndex)
    rw [hsplit, List.drop_left' hlen]
    exact h.backed.perm hperm

theorem reversed_eq {n : Nat} (hcur : it.curMessageIndex ≤ n) :
    ∃ sorted, it.messageIndexes.take n ++ (it.messageIndexes.drop n).reverse =
        it.messageIndexes.take it.curMessageIndex ++ sorted ∧ sorted.Perm it.unread := by
  obtain ⟨m, rfl⟩ := Nat.exists_eq_add_of_le hcur
  refine ⟨it.unread.take m ++ (it.unread.drop m).reverse, ?_, ?_⟩
  · unfold unread
    rw [List.take_add, List.append_assoc, List.drop_drop]
  · refine ((List.reverse_perm _).append_left _).trans ?_
    rw [List.take_append_drop]

theorem sound_sortMessageIndexes (h : Sound file chunkIndexes k it) {n : Nat}
    (hcur : it.curMessageIndex ≤ n) (sortingRequired : Bool) :
    Sound file chunkIndexes k (sortMessageIndexes n sortingRequired it) := by
  unfold sortMessageIndexes
  simp only
  split
  · exact h
  · split
    · exact h.reorder rfl (List.perm_insertionSort _ _)
    · exact h
  · obtain ⟨sorted, hsplit, hperm⟩ := reversed_eq hcur
    split
    · refine h.reorder rfl ((List.perm_insertionSort _ _).trans ?_)
      have hlen : (it.messageIndexes.take it.curMessageIndex).length = it.curMessageIndex := by
        rw [List.length_take]
        exact Nat.min_eq_left h.cur_le
      rwa [hsplit, List.drop_left' hlen]
    · exact h.reorder hsplit hperm

theorem sound_compact (h : Sound file chunkIndexes k it) : Sound file chunkIndexes k (compact it) := by
  unfold compact
  simp only
  split
  · exact ⟨h.file_eq, h.chunkIndexes_eq, h.curChunk_eq, h.size_le, Nat.zero_le _, h.backed⟩
  · exact h

/-- **A chunk is loaded**, or is an error. -/
theorem calm_loadChunk (hload : Loadable rt file idx) :
    Calm (Sound file chunkIndexes k) (loadChunk rt idx) := by
  have hkeeps : Keeps (Sound file chunkIndexes k) (fun _ => True) (loadChunk rt idx)
      fun _ _ => True := by
    unfold loadChunk
    refine keeps_bind (keeps_readChunk hload) fun c => keeps_of_fact fun hc => ?_
    refine keeps_bind keeps_takeSlot fun i => ?_
    refine keeps_bind (keeps_fillSlot hc i) fun _ => ?_
    refine keeps_bind (keeps_truncate fun _ _ _ h => h) fun sortingRequired => ?_
    refine keeps_get fun it h hfilled => ?_
    refine ⟨Indexing it.messageIndexes.length i c.uncompressedSize,
      ⟨hfilled, h.cur_le, Nat.le_refl _⟩, ?_⟩
    refine keeps_bind (keeps_indexMessages hc.1 _ _ _ _) fun sortingRequired => ?_
    refine keeps_bind (M := fun _ _ => True) (keeps_modify fun it h hindexing => ?_) fun _ => ?_
    · exact ⟨sound_sortMessageIndexes h hindexing.cur_le _, trivial⟩
    · exact keeps_modify fun it h _ => ⟨sound_compact h, trivial⟩
  exact fun it h => ⟨(hkeeps it ⟨h, trivial⟩).1, (hkeeps it ⟨h, trivial⟩).2.1⟩

end

/-! ## Iterating -/

section
variable {file : Bytes} {chunkIndexes : List ChunkIndex} {k : Nat} {rt : Runtime}
  {it : IndexedMessageIterator} {e : MessageIndexWithChunkSlot}

theorem sound_yield (h : Sound file chunkIndexes k it)
    (he : it.messageIndexes[it.curMessageIndex]? = some e) :
    Sound file chunkIndexes k
      { it with
        chunkSlots := it.chunkSlots.modify e.chunkSlotIndex fun slot =>
          { slot with unreadMessages := slot.unreadMessages - 1 }
        curMessageIndex := it.curMessageIndex + 1 } := by
  obtain ⟨hlt, he⟩ := List.getElem?_eq_some_iff.mp he
  have hunread : it.unread = e :: it.messageIndexes.drop (it.curMessageIndex + 1) := by
    unfold unread
    rw [List.drop_eq_getElem_cons hlt, he]
  have hbacked := h.backed
  rw [hunread] at hbacked
  exact ⟨h.file_eq, h.chunkIndexes_eq, h.curChunk_eq, h.size_le, hlt, hbacked.yield⟩

theorem keeps_yieldMessage :
    Keeps (Sound file chunkIndexes k) (fun it => it.messageIndexes[it.curMessageIndex]? = some e)
      (yieldMessage e) fun _ _ => True := by
  refine Exec.Ensures.get_bind fun it ⟨h, he⟩ => ?_
  have hmem : e ∈ it.unread := by
    obtain ⟨hlt, he⟩ := List.getElem?_eq_some_iff.mp he
    unfold unread
    rw [List.drop_eq_getElem_cons hlt, he]
    exact List.mem_cons_self
  obtain ⟨slot, hslot, hmessage⟩ := h.backed.inSlot e hmem
  have hyield := sound_yield h he
  simp only [hslot]
  rcases hbytes : messageBytes slot.buf e.offset with bytes | err | _
  · rw [Exec.lift_ok_bind]
    rcases hmsg : parseMessage bytes with msg | err | _
    · rw [Exec.lift_ok_bind, Exec.bind_ok (Exec.modify_run _ _)]
      cases it.channels[msg.channelID]? with
      | none => exact ⟨err_ne_panic _, hyield, by rintro _ ⟨⟩⟩
      | some channel =>
        simp only
        rcases hschema : schemaOf it.schemas channel msg.channelID with schema | err | _
        · exact ⟨ok_ne_panic _, hyield, fun _ _ => trivial⟩
        · exact ⟨err_ne_panic _, hyield, by rintro _ ⟨⟩⟩
        · exact absurd hschema (schemaOf_ne_panic _ _ _)
    · exact ⟨err_ne_panic _, h, by rintro _ ⟨⟩⟩
    · exact absurd hmsg (parseMessage_ne_panic bytes)
  · exact ⟨err_ne_panic _, h, by rintro _ ⟨⟩⟩
  · exact absurd hbytes hmessage

/-- What a turn of the loop of `NextInto` comes to: it loaded the next chunk, or it is the last. -/
def Stepped (file : Bytes) (chunkIndexes : List ChunkIndex) (k : Nat)
    (r : Res Error (Option Yield) × IndexedMessageIterator) : Prop :=
  r.1 ≠ .panic ∧
    (r.1 = .ok none → k < chunkIndexes.length ∧ Sound file chunkIndexes (k + 1) r.2) ∧
    (r.1 ≠ .ok none → Sound file chunkIndexes k r.2)

theorem stepped_loadNext (h : Sound file chunkIndexes k it) {idx : ChunkIndex}
    (hidx : it.chunkIndexes[it.curChunkIndex]? = some idx) (hload : Loadable rt file idx) :
    Stepped file chunkIndexes k (loadNext rt idx it) := by
  obtain ⟨hpanic, hsound⟩ := calm_loadChunk hload it h
  have hlt : k < chunkIndexes.length := by
    rw [h.chunkIndexes_eq, h.curChunk_eq] at hidx
    exact (List.getElem?_eq_some_iff.mp hidx).1
  unfold loadNext
  rw [Exec.bind_run]
  rcases hrun : loadChunk rt idx it with ⟨_ | err | _, it₁⟩
  · rw [hrun] at hsound
    refine ⟨ok_ne_panic _, fun _ => ⟨hlt, ?_⟩, fun hne => absurd rfl hne⟩
    exact ⟨hsound.file_eq, hsound.chunkIndexes_eq, congrArg (· + 1) hsound.curChunk_eq,
      hsound.size_le, hsound.cur_le, hsound.backed⟩
  · rw [hrun] at hsound
    exact ⟨err_ne_panic _, by rintro ⟨⟩, fun _ => hsound⟩
  · rw [hrun] at hpanic
    exact absurd rfl hpanic

theorem stepped_yield (h : Sound file chunkIndexes k it)
    (he : it.messageIndexes[it.curMessageIndex]? = some e) :
    Stepped file chunkIndexes k ((do
      let y ← yieldMessage e
      pure (some y) : Exec IndexedMessageIterator Error (Option Yield)) it) := by
  obtain ⟨hpanic, hsound, -⟩ := keeps_yieldMessage it ⟨h, he⟩
  rw [Exec.bind_run]
  rcases hrun : yieldMessage e it with ⟨y | err | _, it₁⟩
  · rw [hrun] at hsound
    exact ⟨ok_ne_panic _, by rintro ⟨⟩, fun _ => hsound⟩
  · rw [hrun] at hsound
    exact ⟨err_ne_panic _, by rintro ⟨⟩, fun _ => hsound⟩
  · rw [hrun] at hpanic
    exact absurd rfl hpanic

theorem stepped_step (h : Sound file chunkIndexes k it)
    (hload : ∀ idx ∈ chunkIndexes, Loadable rt file idx) :
    Stepped file chunkIndexes k (step rt it) := by
  have hnext : ∀ idx, it.chunkIndexes[it.curChunkIndex]? = some idx →
      Stepped file chunkIndexes k (loadNext rt idx it) := by
    intro idx hidx
    refine stepped_loadNext h hidx (hload idx ?_)
    rw [← h.chunkIndexes_eq]
    exact List.mem_of_getElem? hidx
  unfold step
  rw [Exec.bind_ok (Exec.get_run it)]
  cases he : it.messageIndexes[it.curMessageIndex]? with
  | none =>
    cases hidx : it.chunkIndexes[it.curChunkIndex]? with
    | none => exact ⟨err_ne_panic _, by rintro ⟨⟩, fun _ => h⟩
    | some idx => exact hnext idx hidx
  | some e =>
    cases hidx : it.chunkIndexes[it.curChunkIndex]? with
    | none => exact stepped_yield h he
    | some idx =>
      simp only
      split
      · exact hnext idx hidx
      · exact stepped_yield h he

/-- **The loop of `NextInto` ends**, since it loads each chunk once. -/
theorem run_returns (h : Sound file chunkIndexes k it)
    (hload : ∀ idx ∈ chunkIndexes, Loadable rt file idx) :
    ∃ fuel r it', run rt fuel it = some (r, it') ∧ r ≠ .panic ∧
      ∃ k', Sound file chunkIndexes k' it' := by
  obtain ⟨n, hn⟩ : ∃ n, chunkIndexes.length - k = n := ⟨_, rfl⟩
  induction n generalizing it k with
  | zero =>
    obtain ⟨hpanic, hagain, hlast⟩ := stepped_step h hload
    rcases hstep : step rt it with ⟨(_ | y) | err | _, it₁⟩ <;> rw [hstep] at hpanic hagain hlast
    · obtain ⟨hlt, -⟩ := hagain rfl
      omega
    · exact ⟨1, .ok y, it₁, by rw [run, hstep], ok_ne_panic _, k, hlast (by rintro ⟨⟩)⟩
    · exact ⟨1, .err err, it₁, by rw [run, hstep], err_ne_panic _, k, hlast (by rintro ⟨⟩)⟩
    · exact absurd rfl hpanic
  | succ n ih =>
    obtain ⟨hpanic, hagain, hlast⟩ := stepped_step h hload
    rcases hstep : step rt it with ⟨(_ | y) | err | _, it₁⟩ <;> rw [hstep] at hpanic hagain hlast
    · obtain ⟨hlt, hsound⟩ := hagain rfl
      obtain ⟨fuel, r, it', hrun, hr, hk⟩ := ih hsound (by omega)
      exact ⟨fuel + 1, r, it', by rw [run, hstep]; exact hrun, hr, hk⟩
    · exact ⟨1, .ok y, it₁, by rw [run, hstep], ok_ne_panic _, k, hlast (by rintro ⟨⟩)⟩
    · exact ⟨1, .err err, it₁, by rw [run, hstep], err_ne_panic _, k, hlast (by rintro ⟨⟩)⟩
    · exact absurd rfl hpanic

end

/-! ## The summary section -/

/-- The start of the summary section that the footer of a file names, if that is in the file. -/
def summaryStart? (file : Bytes) : Option Nat :=
  if file.length < 28 ∨ (file.drop (file.length - 28)).drop 20 ≠ MAGIC then none
  else
    match parseFooter ((file.drop (file.length - 28)).take 20) with
    | .ok footer =>
        if footer.summaryStart = 0 ∨ file.length ≤ footer.summaryStart.toNat then none
        else some footer.summaryStart.toNat
    | _ => none

section
variable {file : Bytes} {chunkIndexes : List ChunkIndex} {k : Nat} {rt : Runtime}
  {it it' : IndexedMessageIterator} {D : Unpackers} {fuel fuel' : Nat}
  {r : Res Error Unit × IndexedMessageIterator}

/-- What holds of an iterator over a file, whatever chunk indexes it has. -/
def Sane (file : Bytes) (k : Nat) (it : IndexedMessageIterator) : Prop :=
  Sound file it.chunkIndexes k it

theorem Sane.of_fields (h : Sane file k it) (hfile : it'.file = it.file)
    (hcurChunk : it'.curChunkIndex = it.curChunkIndex) (hsize : it'.fileSize ≤ file.length)
    (hslots : it'.chunkSlots = it.chunkSlots) (hmessages : it'.messageIndexes = it.messageIndexes)
    (hcur : it'.curMessageIndex = it.curMessageIndex) : Sane file k it' where
  file_eq := hfile.trans h.file_eq
  chunkIndexes_eq := rfl
  curChunk_eq := hcurChunk.trans h.curChunk_eq
  size_le := hsize
  cur_le := by
    rw [hmessages, hcur]
    exact h.cur_le
  backed := by
    unfold unread
    rw [hmessages, hcur, hslots]
    exact h.backed

theorem calm_modify_sane {f : IndexedMessageIterator → IndexedMessageIterator}
    (h : ∀ it, (f it).file = it.file ∧ (f it).curChunkIndex = it.curChunkIndex ∧
      (f it).fileSize = it.fileSize ∧ (f it).chunkSlots = it.chunkSlots ∧
      (f it).messageIndexes = it.messageIndexes ∧ (f it).curMessageIndex = it.curMessageIndex) :
    Calm (Sane file k) (Exec.modify f : Exec IndexedMessageIterator Error Unit) := by
  refine calm_modify fun it hit => ?_
  obtain ⟨hfile, hcurChunk, hsize, hslots, hmessages, hcur⟩ := h it
  exact hit.of_fields hfile hcurChunk (hsize ▸ hit.size_le) hslots hmessages hcur

theorem calm_onSummaryToken (t : Token) : Calm (Sane file k) (onSummaryToken t) := by
  unfold onSummaryToken
  split
  · refine calm_bind (calm_lift (wrap_ne_panic (parseSchema_ne_panic _))) fun _ => ?_
    exact calm_bind (calm_modify_sane fun _ => ⟨rfl, rfl, rfl, rfl, rfl, rfl⟩) fun _ => calm_pure _
  · refine calm_bind (calm_lift (wrap_ne_panic (parseChannel_ne_panic _))) fun _ => ?_
    refine calm_bind (calm_modify_sane fun it => ?_) fun _ => calm_pure _
    split <;> exact ⟨rfl, rfl, rfl, rfl, rfl, rfl⟩
  · refine calm_bind (calm_lift (wrap_ne_panic (parseAttachmentIndex_ne_panic _))) fun _ => ?_
    exact calm_bind (calm_modify_sane fun _ => ⟨rfl, rfl, rfl, rfl, rfl, rfl⟩) fun _ => calm_pure _
  · refine calm_bind (calm_lift (wrap_ne_panic (parseMetadataIndex_ne_panic _))) fun _ => ?_
    exact calm_bind (calm_modify_sane fun _ => ⟨rfl, rfl, rfl, rfl, rfl, rfl⟩) fun _ => calm_pure _
  · refine calm_bind (calm_lift (wrap_ne_panic (parseChunkIndex_ne_panic _))) fun _ => ?_
    refine calm_bind (calm_modify_sane fun it => ?_) fun _ => calm_pure _
    split <;> exact ⟨rfl, rfl, rfl, rfl, rfl, rfl⟩
  · refine calm_bind (calm_lift (wrap_ne_panic (parseStatistics_ne_panic _))) fun _ => ?_
    exact calm_bind (calm_modify_sane fun _ => ⟨rfl, rfl, rfl, rfl, rfl, rfl⟩) fun _ => calm_pure _
  · exact calm_bind (calm_modify_sane fun _ => ⟨rfl, rfl, rfl, rfl, rfl, rfl⟩) fun _ => calm_pure _
  · exact calm_pure _

theorem readSummary_mono {l : Lexer} (hle : fuel ≤ fuel')
    (h : readSummary D fuel l it = some r) : readSummary D fuel' l it = some r := by
  induction fuel generalizing fuel' l it with
  | zero => cases h
  | succ fuel ih =>
    obtain _ | fuel' := fuel'
    · omega
    · rw [readSummary] at h ⊢
      cases hnext : l.next D (fuel + 1) 0 with
      | none =>
        rw [hnext] at h
        cases h
      | some p =>
        obtain ⟨r₁, l₁⟩ := p
        rw [Lexer.next_mono hle hnext]
        rw [hnext] at h
        cases r₁ with
        | token t =>
          simp only at h ⊢
          rcases htoken : onSummaryToken t it with ⟨(_ | _) | e | _, it₁⟩
          · rw [htoken] at h
            exact ih (by omega) h
          all_goals
            rw [htoken] at h
            exact h
        | fail type e => exact h
        | panic => exact h

theorem readSummary_token {l l₁ : Lexer} {t : Token} (hle : fuel ≤ fuel')
    (h : l.next D fuel 0 = some (.token t, l₁)) :
    readSummary D (fuel' + 1) l it =
      match onSummaryToken t it with
      | (.ok false, it) => readSummary D fuel' l₁ it
      | (.ok true, it) => some (.ok (), it)
      | (.err e, it) => some (.err e, it)
      | (.panic, it) => some (.panic, it) := by
  rw [readSummary, Lexer.next_mono (Nat.le_succ_of_le hle) h] <;> rfl

theorem readSummary_returns {l : Lexer} (hsafe : l.Safe D) (h : Sane file k it) :
    ∃ fuel r it', readSummary D fuel l it = some (r, it') ∧ r ≠ .panic ∧ Sane file k it' := by
  induction l using Lexer.nearer_wf.induction generalizing it with
  | h l ih =>
    obtain ⟨fuel, r, n, l₁, hrecord, hpanic, hsafe₁, hnear⟩ := Lexer.nextRecord_returns hsafe 0
    have hnext := Lexer.next_of_nextRecord hrecord
    cases r with
    | fail type e =>
      refine ⟨fuel + 1, .err (.wrapped "failed to get next token" e), it, ?_, err_ne_panic _, h⟩
      rw [readSummary, Lexer.next_mono (Nat.le_succ fuel) hnext]
    | panic => exact absurd rfl hpanic
    | token t =>
      obtain ⟨hcalm, hkept⟩ := calm_onSummaryToken t it h
      rcases htoken : onSummaryToken t it with ⟨(_ | _) | e | _, it₁⟩
      · rw [htoken] at hkept
        obtain ⟨fuel₂, r, it', hrun, hr, hsane⟩ := ih l₁ (hnear ⟨t, rfl⟩) hsafe₁ hkept
        refine ⟨max fuel fuel₂ + 1, r, it', ?_, hr, hsane⟩
        rw [readSummary_token (Nat.le_max_left _ _) hnext, htoken]
        exact readSummary_mono (Nat.le_max_right _ _) hrun
      · rw [htoken] at hkept
        refine ⟨fuel + 1, .ok (), it₁, ?_, ok_ne_panic _, hkept⟩
        rw [readSummary_token (Nat.le_refl _) hnext, htoken]
      · rw [htoken] at hkept
        refine ⟨fuel + 1, .err e, it₁, ?_, err_ne_panic _, hkept⟩
        rw [readSummary_token (Nat.le_refl _) hnext, htoken]
      · rw [htoken] at hcalm
        exact absurd rfl hcalm

theorem readFooter_spec (h : Sane file k it) :
    (readFooter it).1 ≠ .panic ∧ Sane file k (readFooter it).2 ∧
      ∀ pos, (readFooter it).1 = .ok (some pos) → summaryStart? file = some pos := by
  obtain rfl := h.file_eq
  have hsize : Sane it.file k { it with fileSize := it.file.length } :=
    h.of_fields rfl rfl (Nat.le_refl _) rfl rfl rfl
  unfold readFooter summaryStart?
  rw [Exec.bind_ok (Exec.get_run it)]
  by_cases hshort : it.file.length < 28
  · rw [if_pos hshort]
    exact ⟨err_ne_panic _, h, by rintro _ ⟨⟩⟩
  · rw [if_neg hshort, Exec.bind_ok (Exec.modify_run _ _)]
    by_cases hmagic : (it.file.drop (it.file.length - 28)).drop 20 = MAGIC
    · rw [if_pos hmagic, if_neg (fun h => h.elim hshort (fun h => h hmagic))]
      rcases hfooter : parseFooter ((it.file.drop (it.file.length - 28)).take 20) with footer | e | _
      · rw [wrap_ok, Exec.lift_ok_bind, Exec.bind_ok (Exec.modify_run _ _)]
        have hsane : Sane it.file k
            { it with fileSize := it.file.length, footer := some footer } :=
          hsize.of_fields rfl rfl (Nat.le_refl _) rfl rfl rfl
        by_cases hzero : footer.summaryStart = 0
        · rw [if_pos hzero]
          exact ⟨ok_ne_panic _, hsane.of_fields rfl rfl (Nat.le_refl _) rfl rfl rfl,
            by rintro _ ⟨⟩⟩
        · rw [if_neg hzero, Exec.bind_run]
          unfold wrapping
          rcases seekTo_spec { it with fileSize := it.file.length, footer := some footer }
            footer.summaryStart with ⟨hseek, hlt⟩ | ⟨e, hseek⟩
          · rw [hseek]
            refine ⟨ok_ne_panic _, hsane, fun pos heq => ?_⟩
            cases heq
            simp only
            rw [if_neg]
            rintro (h | h)
            · exact hzero h
            · exact absurd hlt (Nat.not_lt.mpr h)
          · rw [hseek]
            exact ⟨err_ne_panic _, hsane, by rintro _ ⟨⟩⟩
      · exact ⟨err_ne_panic _, hsize, by rintro _ ⟨⟩⟩
      · exact absurd hfooter (parseFooter_ne_panic _)
    · rw [if_neg hmagic]
      exact ⟨err_ne_panic _, hsize, by rintro _ ⟨⟩⟩

/-- **The summary section is read**, or is an error. -/
theorem parseSummarySection_returns (h : Sane file k it)
    (hsafe : ∀ pos, summaryStart? file = some pos → (summaryLexer file pos).Safe D) :
    ∃ fuel r it', parseSummarySection D fuel it = some (r, it') ∧ r ≠ .panic ∧
      Sane file k it' := by
  obtain ⟨hpanic, hsane, hpos⟩ := readFooter_spec h
  unfold parseSummarySection
  rcases hfooter : readFooter it with ⟨(_ | pos) | e | _, it₁⟩ <;> rw [hfooter] at hpanic hsane hpos
  · exact ⟨0, .ok (), it₁, rfl, ok_ne_panic _, hsane⟩
  · have hfile : it₁.file = file := hsane.file_eq
    simp only [hfile]
    exact readSummary_returns (hsafe pos (hpos pos rfl)) hsane
  · exact ⟨0, .err e, it₁, rfl, err_ne_panic _, hsane⟩
  · exact absurd rfl hpanic

/-! ## Metadata -/

/-- **A metadata record that can be read**: what its header announces can be allocated. -/
def Readable (rt : Runtime) (file : Bytes) (idx : MetadataIndex) : Prop :=
  idx.offset.toNat + 9 ≤ file.length →
    ofLe ((file.drop (idx.offset.toNat + 1)).take 8) ≤ rt.maxAlloc

theorem readRecord_ne_panic {pos : Nat} (buf : Slice)
    (h : pos + 9 ≤ file.length → ofLe ((file.drop (pos + 1)).take 8) ≤ rt.maxAlloc) :
    (readRecord rt.maxAlloc file pos buf).1 ≠ .panic := by
  unfold readRecord
  simp only
  cases herr : (readAt file pos 9).2 with
  | some e => exact err_ne_panic _
  | none =>
    obtain ⟨-, hbytes, hend⟩ := length_readAt _ _ _ herr
    have hlen : ofLe ((readAt file pos 9).1.drop 1) = ofLe ((file.drop (pos + 1)).take 8) := by
      rw [hbytes, List.drop_take, List.drop_drop]
    rw [hlen]
    simp only
    split
    · rw [if_neg (by have := h (by omega); omega)]
      split
      · exact err_ne_panic _
      · exact ok_ne_panic _
    · split
      · exact err_ne_panic _
      · exact ok_ne_panic _

theorem calm_readRecordInto {pos : Nat}
    (h : pos + 9 ≤ file.length → ofLe ((file.drop (pos + 1)).take 8) ≤ rt.maxAlloc) :
    Calm (Sound file chunkIndexes k) (readRecordInto rt pos) := by
  intro it hsound
  obtain rfl := hsound.file_eq
  have hpanic := readRecord_ne_panic it.recordBuf h
  unfold readRecordInto
  rcases hread : readRecord rt.maxAlloc it.file pos it.recordBuf with ⟨⟨opcode, data⟩ | e | _, buf⟩
  · exact ⟨ok_ne_panic _, hsound.setRecordBuf _⟩
  · exact ⟨err_ne_panic _, hsound.setRecordBuf _⟩
  · rw [hread] at hpanic
    exact absurd rfl hpanic

theorem keeps_wrapping {context : String} {α : Type} {I P : IndexedMessageIterator → Prop}
    {x : Exec IndexedMessageIterator Error α} {Q : α → IndexedMessageIterator → Prop}
    (h : Keeps I P x Q) : Keeps I P (wrapping context x) Q := by
  intro s hs
  obtain ⟨hpanic, hI, hQ⟩ := h s hs
  refine ⟨wrap_ne_panic hpanic, hI, fun a heq => hQ a ?_⟩
  change wrap context (x s).1 = .ok a at heq
  cases hx : (x s).1 with
  | ok a' =>
    rw [hx] at heq
    exact heq
  | err e =>
    rw [hx] at heq
    cases heq
  | panic => exact absurd hx hpanic

theorem calm_showMetadata {idx : MetadataIndex} (h : Readable rt file idx)
    (callback : Metadata → Option Error) :
    Calm (Sound file chunkIndexes k) (showMetadata rt callback idx) := by
  have hkeeps : Keeps (Sound file chunkIndexes k) (fun _ => True) (showMetadata rt callback idx)
      fun _ _ => True := by
    unfold showMetadata
    refine keeps_bind (keeps_wrapping (keeps_seekTo idx.offset)) fun pos => keeps_of_fact ?_
    rintro ⟨rfl, -⟩
    refine keeps_calm (calm_bind (calm_wrapping (calm_readRecordInto h)) fun r => ?_)
    obtain ⟨opcode, data⟩ := r
    show Calm _ (if opcode ≠ op.METADATA then _ else _)
    split
    · exact calm_fail _
    · refine calm_bind (calm_lift (wrap_ne_panic (parseMetadata_ne_panic _))) fun metadata => ?_
      cases callback metadata with
      | some e => exact calm_fail _
      | none => exact calm_pure _
  exact fun it h => ⟨(hkeeps it ⟨h, trivial⟩).1, (hkeeps it ⟨h, trivial⟩).2.1⟩

theorem calm_showAll {callback : Metadata → Option Error} {indexes : List MetadataIndex}
    (h : ∀ idx ∈ indexes, Readable rt file idx) :
    Calm (Sound file chunkIndexes k) (showAll rt callback indexes) := by
  induction indexes with
  | nil => exact calm_pure ()
  | cons idx rest ih =>
    refine calm_bind (calm_showMetadata (h idx List.mem_cons_self) callback) fun _ => ?_
    exact ih fun idx' hmem => h idx' (List.mem_cons_of_mem _ hmem)

theorem metadataCallbacks_spec (hsound : Sound file chunkIndexes k it)
    (h : it.metadataCallback ≠ none → ∀ idx ∈ it.metadataIndexes, Readable rt file idx) :
    (metadataCallbacks rt it).1 ≠ .panic ∧
      Sound file chunkIndexes k (metadataCallbacks rt it).2 := by
  unfold metadataCallbacks
  rw [Exec.bind_ok (Exec.get_run it)]
  cases hcallback : it.metadataCallback with
  | none => exact ⟨ok_ne_panic _, hsound⟩
  | some callback =>
    exact calm_showAll (h (by rw [hcallback]; rintro ⟨⟩)) it hsound

/-! ## All calls -/

/-- **What a file may hold for an iterator over it**: a summary section that a lexer may read, and
then metadata and chunks that can be read. -/
structure Guarded (rt : Runtime) (it : IndexedMessageIterator) : Prop where
  summary : it.hasReadSummarySection = false → ∀ pos, summaryStart? it.file = some pos →
    (summaryLexer it.file pos).Safe rt.unpackers
  metadata : it.metadataCallback ≠ none → ∀ idx ∈ it.metadataIndexes, Readable rt it.file idx
  chunks : ∀ idx ∈ it.chunkIndexes, Loadable rt it.file idx

/-- What an iterator comes to by calls of `NextInto`, and on the way where it has read the summary
section. -/
inductive Reaches (rt : Runtime) : IndexedMessageIterator → IndexedMessageIterator → Prop
  | refl (it : IndexedMessageIterator) : Reaches rt it it
  | summary {it it' it'' : IndexedMessageIterator} {fuel : Nat} {r : Res Error Unit}
      (hunread : it.hasReadSummarySection = false)
      (h : it.parseSummarySection rt.unpackers fuel = some (r, it'))
      (hrest : Reaches rt it' it'') : Reaches rt it it''
  | call {it it' it'' : IndexedMessageIterator} {fuel : Nat} {r : Res Error Yield}
      (h : it.nextInto rt fuel = some (r, it')) (hrest : Reaches rt it' it'') : Reaches rt it it''

/-- The iterator is guarded, whatever it comes to. -/
def Safe (rt : Runtime) (it : IndexedMessageIterator) : Prop :=
  ∀ it', Reaches rt it it' → Guarded rt it'

theorem Safe.reaches (h : Safe rt it) (hreaches : Reaches rt it it') : Safe rt it' := by
  induction hreaches with
  | refl it => exact h
  | summary hunread hparse _ ih => exact ih fun it'' h' => h it'' (.summary hunread hparse h')
  | call hcall _ ih => exact ih fun it'' h' => h it'' (.call hcall h')

/-! ### More turns -/

theorem parseSummarySection_mono (hle : fuel ≤ fuel') (h : parseSummarySection D fuel it = some r) :
    parseSummarySection D fuel' it = some r := by
  unfold parseSummarySection at h ⊢
  rcases hfooter : readFooter it with ⟨(_ | pos) | e | _, it₁⟩ <;> rw [hfooter] at h
  · exact h
  · exact readSummary_mono hle h
  · exact h
  · exact h

theorem run_mono {r : Res Error Yield × IndexedMessageIterator} (hle : fuel ≤ fuel')
    (h : run rt fuel it = some r) : run rt fuel' it = some r := by
  induction fuel generalizing fuel' it with
  | zero => cases h
  | succ fuel ih =>
    obtain _ | fuel' := fuel'
    · omega
    · rw [run] at h ⊢
      rcases hstep : step rt it with ⟨(_ | y) | e | _, it₁⟩ <;> rw [hstep] at h
      · exact ih (by omega) h
      · exact h
      · exact h
      · exact h

theorem begin_mono (hle : fuel ≤ fuel')
    (h : begin rt fuel it = some r) : begin rt fuel' it = some r := by
  unfold begin at h ⊢
  split at h
  · rename_i hread
    rwa [if_pos hread]
  · rename_i hread
    rw [if_neg hread]
    cases hparse : parseSummarySection rt.unpackers fuel it with
    | none =>
      rw [hparse] at h
      cases h
    | some p =>
      rw [parseSummarySection_mono hle hparse, ← h, hparse]

theorem nextInto_mono {r : Res Error Yield × IndexedMessageIterator} (hle : fuel ≤ fuel')
    (h : nextInto rt fuel it = some r) : nextInto rt fuel' it = some r := by
  unfold nextInto at h ⊢
  cases hbegin : begin rt fuel it with
  | none =>
    rw [hbegin] at h
    cases h
  | some p =>
    rw [begin_mono hle hbegin]
    rw [hbegin] at h
    rcases p with ⟨_ | e | _, it₁⟩
    · exact run_mono hle h
    · exact h
    · exact h

/-! ### One call -/

theorem begin_returns (h : Sane file k it) (hsafe : Safe rt it) :
    ∃ fuel r it', begin rt fuel it = some (r, it') ∧ r ≠ .panic ∧ Sane file k it' ∧
      (r = .ok () → ∀ idx ∈ it'.chunkIndexes, Loadable rt file idx) := by
  have hguarded := hsafe it (.refl it)
  have hfile := h.file_eq
  cases hread : it.hasReadSummarySection with
  | true =>
    refine ⟨0, .ok (), it, ?_, ok_ne_panic _, h, fun _ => hfile ▸ hguarded.chunks⟩
    unfold begin
    rw [if_pos hread]
  | false =>
    obtain ⟨fuel, r, it₁, hparse, hr, hsane⟩ :=
      parseSummarySection_returns (D := rt.unpackers) h (hfile ▸ hguarded.summary hread)
    have hunread : ¬it.hasReadSummarySection = true := Bool.not_eq_true _ ▸ hread
    cases r with
    | ok u =>
      obtain ⟨hpanic, hsound⟩ := metadataCallbacks_spec hsane
        (hsane.file_eq ▸ (hsafe it₁ (.summary hread hparse (.refl it₁))).metadata)
      have hindexes := hsound.chunkIndexes_eq
      have hchunks := (hsafe it₁ (.summary hread hparse (.refl it₁))).chunks
      rw [hsane.file_eq] at hchunks
      refine ⟨fuel, (metadataCallbacks rt it₁).1, (metadataCallbacks rt it₁).2, ?_, hpanic, ?_,
        fun _ => hindexes ▸ hchunks⟩
      · rw [begin, if_neg hunread, hparse]
      unfold Sane
      rw [hindexes]
      exact hsound
    | err e =>
      refine ⟨fuel, .err e, it₁, ?_, err_ne_panic e, hsane, by rintro ⟨⟩⟩
      rw [begin, if_neg hunread, hparse]
    | panic => exact absurd rfl hr

/-- **`NextInto` of the indexed iterator returns.** -/
theorem nextInto_returns (h : Sane file k it) (hsafe : Safe rt it) :
    ∃ fuel r it', it.nextInto rt fuel = some (r, it') ∧ r ≠ .panic ∧ ∃ k', Sane file k' it' := by
  obtain ⟨fuel, r, it₁, hbegin, hr, hsane, hload⟩ := begin_returns h hsafe
  cases r with
  | ok u =>
    obtain ⟨fuel', r, it', hrun, hr, k', hsound⟩ := run_returns hsane (hload rfl)
    refine ⟨max fuel fuel', r, it', ?_, hr, k', ?_⟩
    · unfold nextInto
      rw [begin_mono (Nat.le_max_left _ _) hbegin]
      exact run_mono (Nat.le_max_right _ _) hrun
    · unfold Sane
      rw [hsound.chunkIndexes_eq]
      exact hsound
  | err e =>
    refine ⟨fuel, .err e, it₁, ?_, err_ne_panic e, k, hsane⟩
    unfold nextInto
    rw [hbegin]
  | panic => exact absurd rfl hr

theorem Sane.reaches (h : Sane file k it) (hsafe : Safe rt it) (hreaches : Reaches rt it it') :
    ∃ k', Sane file k' it' := by
  induction hreaches generalizing k with
  | refl it => exact ⟨k, h⟩
  | @summary it it₁ it₂ fuel r hunread hparse hrest ih =>
    have hsafe₁ := hsafe.reaches (.summary hunread hparse (.refl it₁))
    obtain ⟨fuel', r', it', hparse', -, hsane⟩ := parseSummarySection_returns (D := rt.unpackers) h
      (h.file_eq ▸ (hsafe it (.refl it)).summary hunread)
    have heq := (parseSummarySection_mono (Nat.le_max_left fuel fuel') hparse).symm.trans
      (parseSummarySection_mono (Nat.le_max_right fuel fuel') hparse')
    cases heq
    exact ih hsane hsafe₁
  | @call it it₁ it₂ fuel r hcall hrest ih =>
    obtain ⟨fuel', r', it', hcall', -, k', hsane⟩ := nextInto_returns h hsafe
    have heq := (nextInto_mono (Nat.le_max_left fuel fuel') hcall).symm.trans
      (nextInto_mono (Nat.le_max_right fuel fuel') hcall')
    cases heq
    exact ih hsane (hsafe.reaches (.call hcall (.refl it₁)))

theorem sane_indexedMessageIterator (r : Reader) (opts : ReadOptions) :
    Sane r.lexer.source.bytes 0 (r.indexedMessageIterator opts) where
  file_eq := rfl
  chunkIndexes_eq := rfl
  curChunk_eq := rfl
  size_le := Nat.zero_le _
  cur_le := Nat.le_refl _
  backed := ⟨by rintro e ⟨⟩, by rintro i slot ⟨⟩⟩

end

end IndexedMessageIterator

/-! ## All readers -/

namespace UnindexedMessageIterator

/-- What an iterator comes to by calls of `NextInto`. -/
inductive Reaches (D : Unpackers) : UnindexedMessageIterator → UnindexedMessageIterator → Prop
  | refl (it : UnindexedMessageIterator) : Reaches D it it
  | call {it it' it'' : UnindexedMessageIterator} {fuel : Nat} {r : Res Error Yield}
      (h : it.nextInto D fuel = some (r, it')) (hrest : Reaches D it' it'') : Reaches D it it''

theorem safe_of_reaches {D : Unpackers} {it it' : UnindexedMessageIterator}
    (h : it.lexer.Safe D) (hreaches : Reaches D it it') : it'.lexer.Safe D := by
  induction hreaches with
  | refl it => exact h
  | @call it it₁ it₂ fuel r hcall hrest ih =>
    obtain ⟨fuel', r', it', hcall', -, hsafe⟩ := nextInto_returns h
    have heq := (nextInto_mono (Nat.le_max_left fuel fuel') hcall).symm.trans
      (nextInto_mono (Nat.le_max_right fuel fuel') hcall')
    cases heq
    exact ih hsafe

end UnindexedMessageIterator

/-- **Readers return**: the parsers of records other than chunks always, `ParseChunk` if and only
if the records are within the capacity of its buffer, and the lexer and the iterators call after
call, as long as what is in front of them is guarded. -/
theorem readers_return (rt : Runtime) :
    (∀ buf, parseMessageIndex buf ≠ .panic ∧ parseChunkIndex buf ≠ .panic ∧
      parseStatistics buf ≠ .panic ∧ parseChannel buf ≠ .panic ∧ parseMetadata buf ≠ .panic) ∧
    (∀ buf, parseChunk buf ≠ .panic ↔ RecordsFit buf) ∧
    (∀ source opts l, newLexer source opts = .ok l → l.Safe rt.unpackers →
      ∀ l', Lexer.Reaches rt.unpackers l l' → ∀ capacity, ∃ fuel r l'',
        l'.next rt.unpackers fuel capacity = some (r, l'') ∧ r ≠ .panic) ∧
    (∀ (reader : Reader) opts, (reader.unindexedIterator opts).lexer.Safe rt.unpackers →
      ∀ it, UnindexedMessageIterator.Reaches rt.unpackers (reader.unindexedIterator opts) it →
        ∃ fuel r it', it.nextInto rt.unpackers fuel = some (r, it') ∧ r ≠ .panic) ∧
    (∀ (reader : Reader) opts, (reader.indexedMessageIterator opts).Safe rt →
      ∀ it, IndexedMessageIterator.Reaches rt (reader.indexedMessageIterator opts) it →
        ∃ fuel r it', it.nextInto rt fuel = some (r, it') ∧ r ≠ .panic) := by
  refine ⟨fun buf => ⟨parseMessageIndex_ne_panic buf, parseChunkIndex_ne_panic buf,
    parseStatistics_ne_panic buf, parseChannel_ne_panic buf, parseMetadata_ne_panic buf⟩,
    fun buf => ?_, ?_, ?_, ?_⟩
  · exact (not_congr (parseChunk_panic_iff buf)).trans not_not
  · intro source opts l _ hsafe l' hreaches capacity
    obtain ⟨fuel, r, n, l'', hnext, hr, -⟩ :=
      Lexer.nextRecord_returns (hsafe.reaches hreaches) capacity
    exact ⟨fuel, r, l'', Lexer.next_of_nextRecord hnext, hr⟩
  · intro reader opts hsafe it hreaches
    obtain ⟨fuel, r, it', hnext, hr, -⟩ := UnindexedMessageIterator.nextInto_returns
      (UnindexedMessageIterator.safe_of_reaches hsafe hreaches)
    exact ⟨fuel, r, it', hnext, hr⟩
  · intro reader opts hsafe it hreaches
    obtain ⟨k, hsane⟩ := (IndexedMessageIterator.sane_indexedMessageIterator reader opts).reaches
      hsafe hreaches
    obtain ⟨fuel, r, it', hnext, hr, -⟩ :=
      IndexedMessageIterator.nextInto_returns hsane (hsafe.reaches hreaches)
    exact ⟨fuel, r, it', hnext, hr⟩

/-- A file that ends in a chunk, behind the length of the name of its compression. -/
def namedChunk (name : Nat) : Bytes :=
  MAGIC ++ [op.CHUNK] ++ le 8 32 ++ List.replicate 28 0 ++ le 4 name

/-- The lexer of such a file, at its start and when it has failed. -/
def namedLexer (name pos : Nat) : Lexer :=
  ⟨⟨namedChunk name, pos, true⟩, .base, 0, lexerOptions false false fun _ => none⟩

/-- Compression packages that are never called, and enough memory. -/
def plainRuntime : Runtime where
  unpackers := noUnpackers
  decodeAll _ dst := (dst, none)
  maxAlloc := 2 ^ 47
  grow n := n

theorem safe_namedLexer : (namedLexer 24 8).Safe noUnpackers := by
  refine Lexer.Safe.of_closed (S := fun l => l = namedLexer 24 8 ∨ l = namedLexer 24 49) (.inl rfl)
    ?_ ?_
  · rintro l (rfl | rfl) capacity
    · exact .inr rfl
    · exact .inr rfl
  · rintro l (rfl | rfl)
    · refine ⟨fun _ _ _ _ _ => ⟨fun _ => .inl (by decide), fun name hname hlen => ?_⟩, fun _ _ hop => ?_⟩
      · have hshort : ((namedLexer 24 8).available.drop 9).length = 32 := by decide
        omega
      · exact absurd hop (by decide)
    · exact ⟨fun h => absurd h (by decide), fun h => absurd h (by decide)⟩

namespace IndexedMessageIterator

/-- An iterator over a file that has read nothing of it. -/
structure Blank (file : Bytes) (it : IndexedMessageIterator) : Prop where
  file_eq : it.file = file
  unread : it.hasReadSummarySection = false
  chunkIndexes_eq : it.chunkIndexes = []
  metadataIndexes_eq : it.metadataIndexes = []

section
variable {file : Bytes} {rt : Runtime} {it it' : IndexedMessageIterator}

theorem Blank.readFooter (hbad : (file.drop (file.length - 28)).drop 20 ≠ MAGIC)
    (h : Blank file it) : ∃ e it', readFooter it = (.err e, it') ∧ Blank file it' := by
  obtain rfl := h.file_eq
  unfold IndexedMessageIterator.readFooter
  rw [Exec.bind_ok (Exec.get_run it)]
  split
  · exact ⟨_, it, rfl, h⟩
  · rw [Exec.bind_ok (Exec.modify_run _ _), if_neg hbad]
    exact ⟨_, _, rfl, rfl, h.unread, h.chunkIndexes_eq, h.metadataIndexes_eq⟩

theorem Blank.parseSummarySection (hbad : (file.drop (file.length - 28)).drop 20 ≠ MAGIC)
    (h : Blank file it) (fuel : Nat) :
    ∃ e it', it.parseSummarySection rt.unpackers fuel = some (.err e, it') ∧ Blank file it' := by
  obtain ⟨e, it', hfooter, hblank⟩ := h.readFooter hbad
  refine ⟨e, it', ?_, hblank⟩
  unfold IndexedMessageIterator.parseSummarySection
  rw [hfooter]

theorem Blank.reaches (hbad : (file.drop (file.length - 28)).drop 20 ≠ MAGIC) (h : Blank file it)
    (hreaches : Reaches rt it it') : Blank file it' := by
  induction hreaches with
  | refl it => exact h
  | @summary it it₁ it₂ fuel r hunread hparse hrest ih =>
    obtain ⟨e, it', hparse', hblank⟩ := Blank.parseSummarySection hbad h fuel
    cases hparse.symm.trans hparse'
    exact ih hblank
  | @call it it₁ it₂ fuel r hcall hrest ih =>
    obtain ⟨e, it', hparse', hblank⟩ := Blank.parseSummarySection hbad h fuel
    unfold nextInto begin at hcall
    rw [if_neg (by rw [h.unread]; exact Bool.false_ne_true), hparse'] at hcall
    cases hcall
    exact ih hblank

theorem Blank.safe (hbad : (file.drop (file.length - 28)).drop 20 ≠ MAGIC) (h : Blank file it) :
    it.Safe rt := by
  intro it' hreaches
  have hblank := h.reaches hbad hreaches
  refine ⟨fun _ pos hpos => ?_, fun _ idx hidx => ?_, fun idx hidx => ?_⟩
  · unfold summaryStart? at hpos
    rw [if_pos (.inr (by rw [hblank.file_eq]; exact hbad))] at hpos
    cases hpos
  · rw [hblank.metadataIndexes_eq] at hidx
    cases hidx
  · rw [hblank.chunkIndexes_eq] at hidx
    cases hidx

end

end IndexedMessageIterator

/-- A reader of a file with a chunk that is cut off. -/
def namedReader : Reader := ⟨namedLexer 24 8, ⟨[], []⟩⟩

/-- **Readers at a chunk that is cut off** return, as does the lexer when it has failed. -/
theorem readers_return_namedChunk :
    (∃ fuel r l, (namedLexer 24 8).next noUnpackers fuel 0 = some (r, l) ∧ r ≠ .panic) ∧
    (∃ fuel r l, (namedLexer 24 49).next noUnpackers fuel 0 = some (r, l) ∧ r ≠ .panic) ∧
    (∃ fuel r it, (namedReader.unindexedIterator ReadOptions.default).nextInto noUnpackers fuel =
      some (r, it) ∧ r ≠ .panic) ∧
    ∃ fuel r it, (namedReader.indexedMessageIterator ReadOptions.default).nextInto plainRuntime
      fuel = some (r, it) ∧ r ≠ .panic := by
  obtain ⟨-, -, hlexer, hunindexed, hindexed⟩ := readers_return plainRuntime
  have hnew : newLexer ⟨namedChunk 24, 0, true⟩ (lexerOptions false false fun _ => none) =
      .ok (namedLexer 24 8) := rfl
  have hblank : (namedReader.indexedMessageIterator .default).Safe plainRuntime :=
    IndexedMessageIterator.Blank.safe (show ((namedChunk 24).drop _).drop 20 ≠ MAGIC by decide) ⟨rfl, rfl, rfl, rfl⟩
  refine ⟨hlexer _ _ _ hnew safe_namedLexer _ (.refl _) 0,
    hlexer _ _ _ hnew safe_namedLexer _ ?_ 0,
    hunindexed namedReader .default safe_namedLexer _ (.refl _),
    hindexed namedReader .default hblank _ (.refl _)⟩
  exact @Lexer.Reaches.turn _ _ _ _ 0 (.fail .error (.truncatedRecord op.CHUNK 32 32)) rfl (.refl _)

/-- **The lexer panics** where the name of a compression has 25 bytes, and `ParseChunk` where the
records are said to be longer than the chunk. -/
theorem readers_panic :
    (∃ source opts l l', newLexer source opts = .ok l ∧
      l.next noUnpackers 1 0 = some (.panic, l')) ∧
    ∃ buf, parseChunk (.of buf) = .panic := by
  refine ⟨⟨⟨namedChunk 25, 0, true⟩, lexerOptions false false fun _ => none, namedLexer 25 8, _,
    rfl, rfl⟩, List.replicate 32 0 ++ le 8 1, ?_⟩
  decide

end Go
end Mcap

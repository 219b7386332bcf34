import Mcap.GoWriter

/-! # What the Go writer has written

A writer is described by the entries of the data section that are complete, top-level records
and chunks with the message indexes behind them, and by the calls whose records are in the open
chunk.  `Shows` says that the bytes of the file, the hashers, the compressor and the indexes of
the open chunk are those of the entries and of these calls.

Each method of the writer is described once by what it leaves: a record goes behind the entries,
or into the open chunk, and `flushActiveChunk` makes an entry of the open chunk.  What the
description needs of a compressor is which pieces it was given since it was new or reset.
-/
namespace Mcap
namespace Go

/-! ## Calls and their records -/

namespace Call

/-- The opcode of the record of a call. -/
def opcode : Call → UInt8
  | schema _ => op.SCHEMA
  | channel _ => op.CHANNEL
  | message _ => op.MESSAGE
  | attachment _ => op.ATTACHMENT
  | metadata _ => op.METADATA

/-- The body of the record of a call. -/
def body : Call → Bytes
  | schema s => s.body
  | channel c => c.body
  | message m => m.body
  | attachment a => a.body
  | metadata m => m.body

/-- The record of a call. -/
def record (c : Call) : UInt8 × Bytes := (c.opcode, c.body)

/-- The record goes into the open chunk, if there are chunks. -/
def inChunk : Call → Bool
  | schema _ | channel _ | message _ => true
  | attachment _ | metadata _ => false

/-- The message of a call. -/
def message? : Call → Option Message
  | message m => some m
  | _ => none

end Call

/-- The messages of calls. -/
def messages (cs : List Call) : List Message := cs.filterMap Call.message?

/-- The log times of the messages of calls. -/
def logTimes (cs : List Call) : List UInt64 := (messages cs).map Message.logTime

/-- The records of calls, one after the other. -/
def callBytes (cs : List Call) : Bytes := frames (cs.map Call.record)

@[simp] theorem messages_nil : messages [] = [] := rfl

@[simp] theorem messages_append (cs cs' : List Call) :
    messages (cs ++ cs') = messages cs ++ messages cs' := List.filterMap_append

@[simp] theorem logTimes_nil : logTimes [] = [] := rfl

@[simp] theorem logTimes_append (cs cs' : List Call) :
    logTimes (cs ++ cs') = logTimes cs ++ logTimes cs' := by
  rw [logTimes, messages_append, List.map_append]
  rfl

theorem callBytes_append (cs : List Call) (c : Call) :
    callBytes (cs ++ [c]) = callBytes cs ++ frame c.opcode c.body := by
  rw [callBytes, List.map_append, frames_append]
  show _ ++ (frame c.opcode c.body ++ []) = _
  rw [List.append_nil]
  rfl

theorem callBytes_eq_nil {cs : List Call} : callBytes cs = [] ↔ cs = [] := by
  constructor
  · intro h
    cases cs with
    | nil => rfl
    | cons c cs => cases h
  · rintro rfl
    rfl

/-! ## The index of a chunk -/

/-- The entry of a call in the message index of a channel. -/
def indexEntry (id : UInt16) (pos : Nat) : Call → List MessageIndexEntry
  | .message m => if m.channelID = id then [⟨m.logTime, .ofNat pos⟩] else []
  | _ => []

/-- The entries of a channel, if the first of the calls has its record at `pos`. -/
def indexEntries (id : UInt16) : Nat → List Call → List MessageIndexEntry
  | _, [] => []
  | pos, c :: cs =>
      indexEntry id pos c ++ indexEntries id (pos + (frame c.opcode c.body).length) cs

theorem indexEntries_append (id : UInt16) (pos : Nat) (cs : List Call) (c : Call) :
    indexEntries id pos (cs ++ [c]) =
      indexEntries id pos cs ++ indexEntry id (pos + (callBytes cs).length) c := by
  induction cs generalizing pos with
  | nil =>
    show indexEntry id pos c ++ [] = [] ++ _
    rw [List.append_nil]
    rfl
  | cons d cs ih =>
    have hlen : (callBytes (d :: cs)).length =
        (frame d.opcode d.body).length + (callBytes cs).length := List.length_append
    rw [List.cons_append, indexEntries, ih, indexEntries, hlen, Nat.add_assoc, List.append_assoc]

/-- The message index records of a chunk, of the given channels. -/
def indexRecords (ids : List UInt16) (cs : List Call) : List (UInt8 × Bytes) :=
  ids.filterMap fun id =>
    if indexEntries id 0 cs = [] then none
    else some (op.MESSAGE_INDEX, indexBody id (indexEntries id 0 cs))

/-! ## Time ranges -/

/-- The start of the time range of a chunk, as the writer keeps it. -/
def leastTime (ts : List UInt64) : UInt64 :=
  ts.foldl (fun start t => if t < start then t else start) maxUint64

/-- The end of the time range of a chunk, as the writer keeps it. -/
def greatestTime (ts : List UInt64) : UInt64 :=
  ts.foldl (fun end_ t => if end_ < t then t else end_) 0

theorem leastTime_append (ts : List UInt64) (t : UInt64) :
    leastTime (ts ++ [t]) = if t < leastTime ts then t else leastTime ts := by
  rw [leastTime, List.foldl_append]
  rfl

theorem greatestTime_append (ts : List UInt64) (t : UInt64) :
    greatestTime (ts ++ [t]) = if greatestTime ts < t then t else greatestTime ts := by
  rw [greatestTime, List.foldl_append]
  rfl

/-! ## Entries -/

/-- A part of the data section. -/
inductive Entry
  | record (c : Call)
  /-- A chunk of the records of `calls`, compressed to `out`, and its message indexes in the order
  of `ids`. -/
  | chunk (calls : List Call) (ids : List UInt16) (out : Bytes)

section
variable {κ : Type} (o : WriterOptions κ)

/-- The checksum that a writer keeps of some bytes. -/
def hashed (computeCRC : Bool) (bytes : Bytes) : Hasher :=
  if computeCRC then ⟨bytes⟩ else .new

/-- The chunk of some calls. -/
def chunkOf (cs : List Call) (out : Bytes) : Chunk :=
  let any : Prop := UInt64.ofNat (messages cs).length ≠ 0
  { messageStartTime := if any then leastTime (logTimes cs) else 0
    messageEndTime := if any then greatestTime (logTimes cs) else 0
    uncompressedSize := (callBytes cs).length
    uncompressedCRC := (hashed o.includeCRC (callBytes cs)).finalize
    compression := o.compression
    records := out }

namespace Entry

/-- The records of the file. -/
def records : Entry → List (UInt8 × Bytes)
  | record c => [c.record]
  | chunk cs ids out =>
      (op.CHUNK, (chunkOf o cs out).body) ::
        if o.skipMessageIndexing then [] else indexRecords ids cs

/-- The calls whose records an entry holds. -/
def flat : Entry → List Call
  | record c => [c]
  | chunk cs _ _ => cs

/-- The entry is a chunk. -/
def isChunk : Entry → Bool
  | record _ => false
  | chunk .. => true

end Entry

/-- The magic and the header. -/
def headBytes (header : Header) : Bytes :=
  (if o.skipMagic then [] else MAGIC) ++ frame op.HEADER
    { header with library := Writer.headerLibrary o.overrideLibrary header.library }.body

/-- The records of the data section behind the header. -/
def dataRecords (es : List Entry) : List (UInt8 × Bytes) := es.flatMap (Entry.records o)

/-- The file up to the end of the entries. -/
def dataBytes (header : Header) (es : List Entry) : Bytes :=
  headBytes o header ++ frames (dataRecords o es)

theorem dataBytes_append (header : Header) (es : List Entry) (e : Entry) :
    dataBytes o header (es ++ [e]) = dataBytes o header es ++ frames (e.records o) := by
  simp [dataBytes, dataRecords, List.append_assoc]

end

/-! ## Sinks -/

namespace WriteSizer

/-- A sink that holds `bytes`, all of them hashed since the checksum was reset last. -/
def holding (calculateCRC : Bool) (bytes : Bytes) : WriteSizer :=
  ⟨bytes, if calculateCRC then some ⟨bytes⟩ else none, bytes.length⟩

@[simp] theorem write_write (w : WriteSizer) (p q : Bytes) :
    (w.write p).write q = w.write (p ++ q) := by
  obtain ⟨out, crc, size⟩ := w
  cases crc <;> simp [write, Nat.add_assoc]

@[simp] theorem write_nil (w : WriteSizer) : w.write [] = w := by
  obtain ⟨out, crc, size⟩ := w
  cases crc <;> simp [write]

@[simp] theorem write_holding (calculateCRC : Bool) (bytes p : Bytes) :
    (holding calculateCRC bytes).write p = holding calculateCRC (bytes ++ p) := by
  cases calculateCRC <;> simp [holding, write, Hasher.update]

theorem new_eq (calculateCRC : Bool) : new calculateCRC = holding calculateCRC [] := rfl

end WriteSizer

theorem CountingCRCWriter.account_account {κ : Type} (c : CountingCRCWriter κ)
    (w w' : Compressor κ) (p q : Bytes) :
    (c.account w p).account w' q = c.account w' (p ++ q) := by
  cases h : c.computeCRC <;> simp [account, h, Nat.add_assoc]

/-! ## Compressors -/

section
variable {κ : Type} [ResettableWriteCloser κ]

/-- `Packing c pieces c' out`: given the pieces, the compressor `c` passes on `out` and becomes
`c'`. -/
inductive Packing (c : Compressor κ) : List Bytes → Compressor κ → Bytes → Prop
  | nil : Packing c [] c []
  | snoc {pieces : List Bytes} {c' c'' : Compressor κ} {out out' p : Bytes}
      (h : Packing c pieces c' out) (hp : c'.write p = .ok (c'', out')) :
      Packing c (pieces ++ [p]) c'' (out ++ out')

/-- A compressor that has been given nothing: it was just made, or reset. -/
inductive Fresh [Packages κ] : Compressor κ → Prop
  | bufCloser : Fresh .bufCloser
  | reset (c : κ) : Fresh (.codec (ResettableWriteCloser.reset c))
  | zstd {level : CompressionLevel} {c : κ} (h : Packages.zstd level = .ok c) : Fresh (.codec c)
  | lz4 (level : CompressionLevel) : Fresh (.codec (Packages.lz4 level))

theorem Fresh.of_reset [Packages κ] (c : Compressor κ) : Fresh c.reset := by
  cases c with
  | bufCloser => exact .bufCloser
  | codec c => exact .reset c

/-- The compressors with which a writer begins a chunk: the one it was made with, and that one
again once it was given some pieces, closed and reset. -/
inductive Begins [Packages κ] (o : WriterOptions κ) : Compressor κ → Prop
  | unchunked (h : o.chunked = false) : Begins o .bufCloser
  | new {c : Compressor κ} (h : chooseCompressor o = .ok (c, o.compression)) : Begins o c
  | again {c c' c'' : Compressor κ} {pieces : List Bytes} {front tail : Bytes} (h : Begins o c)
      (hpacking : Packing c pieces c' front) (hclose : c'.close = .ok (c'', tail)) :
      Begins o c''.reset

theorem chosen [Packages κ] {opts : WriterOptions κ} {c : Compressor κ} {compression : Bytes}
    (h : chooseCompressor opts = .ok (c, compression)) : Fresh c ∧
      chooseCompressor (opts.adjusted compression) =
        .ok (c, (opts.adjusted compression).compression) := by
  have hcompressor : (opts.adjusted compression).compressor = opts.compressor := rfl
  unfold chooseCompressor at h ⊢
  rw [hcompressor]
  cases hcustom : opts.compressor with
  | some custom =>
    rw [hcustom] at h
    simp only at h ⊢
    split at h
    · cases h
    · rename_i hne
      cases h
      exact ⟨.reset _, if_neg hne⟩
  | none =>
    rw [hcustom] at h
    simp only at h ⊢
    show _ ∧ (if compression = compressionZSTD then _ else if compression = compressionLZ4 then _
      else if compression = compressionNone then _ else _) = _
    split at h
    · rename_i hzstd
      cases hzw : Packages.zstd (κ := κ) opts.compressionLevel with
      | error e =>
        rw [hzw] at h
        cases h
      | ok zw =>
        rw [hzw] at h
        cases h
        refine ⟨.zstd hzw, ?_⟩
        rw [if_pos hzstd]
        show (Packages.zstd opts.compressionLevel >>= _) = _
        rw [hzw]
        rfl
    · rename_i hzstd
      split at h
      · rename_i hlz4
        cases h
        exact ⟨.lz4 _, by rw [if_neg hzstd, if_pos hlz4]; rfl⟩
      · rename_i hlz4
        split at h
        · rename_i hnone
          cases h
          exact ⟨.bufCloser, by rw [if_neg hzstd, if_neg hlz4, if_pos hnone]⟩
        · cases h

theorem Begins.fresh [Packages κ] {o : WriterOptions κ} {c : Compressor κ} (h : Begins o c) :
    Fresh c := by
  cases h with
  | unchunked h => exact .bufCloser
  | again h hpacking hclose => exact .of_reset _
  | new h => exact (chosen h).1

/-- `out` is what the compressor of a writer makes of `bytes`, given in pieces, and closed. -/
def Packed [Packages κ] (o : WriterOptions κ) (bytes out : Bytes) : Prop :=
  ∃ (c c' c'' : Compressor κ) (pieces : List Bytes) (front tail : Bytes), Begins o c ∧
    pieces.flatten = bytes ∧ Packing c pieces c' front ∧ c'.close = .ok (c'', tail) ∧
      out = front ++ tail

/-- `out` is what a compressor makes of `bytes`, given in pieces, and closed. -/
def Packs (κ : Type) [ResettableWriteCloser κ] [Packages κ] (bytes out : Bytes) : Prop :=
  ∃ (c c' c'' : Compressor κ) (pieces : List Bytes) (front tail : Bytes), Fresh c ∧
    pieces.flatten = bytes ∧ Packing c pieces c' front ∧ c'.close = .ok (c'', tail) ∧
      out = front ++ tail

end

section
variable {κ : Type} [ResettableWriteCloser κ] [Packages κ] {o : WriterOptions κ} {bytes out : Bytes}

theorem Packed.packs (h : Packed o bytes out) : Packs κ bytes out := by
  obtain ⟨c, c', c'', pieces, front, tail, hc, hrest⟩ := h
  exact ⟨c, c', c'', pieces, front, tail, hc.fresh, hrest⟩

end

/-! ## The methods of the writer -/

namespace Writer
variable {κ : Type}

theorem writeRecord_eq (w : Writer κ) (opcode : UInt8) (data : Bytes) :
    w.writeRecord opcode data = { w with w := w.w.write (frame opcode data) } := by
  rw [writeRecord, WriteSizer.write_write]
  rfl

theorem writeMessageIndexes_eq (w : Writer κ) {idxs : List MessageIndex}
    (h : ∀ idx ∈ idxs, idx.isEmpty = false) : (w.writeMessageIndexes idxs).1 =
      { w with w := w.w.write (frames (idxs.map fun idx => (op.MESSAGE_INDEX, idx.body))) } := by
  suffices hgen : ∀ offsets, (idxs.foldl placeMessageIndex (w, offsets)).1 =
      { w with w := w.w.write (frames (idxs.map fun idx => (op.MESSAGE_INDEX, idx.body))) } from
    hgen ∅
  induction idxs generalizing w with
  | nil =>
    intro offsets
    simp
  | cons idx idxs ih =>
    intro offsets
    have hidx := h idx List.mem_cons_self
    have hstep : placeMessageIndex (w, offsets) idx =
        (w.writeMessageIndex idx, offsets.insert idx.channelID (.ofNat w.w.size)) := by
      simp [placeMessageIndex, hidx]
    rw [List.foldl_cons, hstep, ih (w.writeMessageIndex idx)
      (fun i hi => h i (List.mem_cons_of_mem _ hi)), writeMessageIndex, writeRecord_eq]
    simp

theorem writeChunkWithIndexes_eq (w : Writer κ) {c : Chunk} (hc : c.uncompressedSize ≠ 0)
    {idxs : List MessageIndex} (hidxs : ∀ idx ∈ idxs, idx.isEmpty = false)
    (hskip : w.opts.skipMessageIndexing = true → idxs = []) :
    ∃ index, w.writeChunkWithIndexes c idxs =
      { w with
        w := w.w.write (frame op.CHUNK c.body ++
          frames (idxs.map fun idx => (op.MESSAGE_INDEX, idx.body)))
        chunkIndexes := w.chunkIndexes ++ [index]
        statistics := coverChunk w.statistics c } := by
  have hif : (if w.opts.skipMessageIndexing then [] else idxs) = idxs := by
    split
    · rename_i h
      exact (hskip h).symm
    · rfl
  have hbytes : (op.CHUNK :: (le 8 (c.top.length + c.records.length) ++ c.top)) ++ c.records =
      frame op.CHUNK c.body := by
    simp [frame, Chunk.body]
  unfold writeChunkWithIndexes
  rw [if_neg hc]
  simp only [hif, writeMessageIndexes_eq _ hidxs]
  simp only [WriteSizer.write_write, hbytes]
  exact ⟨_, rfl⟩

variable [ResettableWriteCloser κ] {w : Writer κ}

theorem writeCompressed_eq_ok {w' : Writer κ} {opcode : UInt8} {data : Bytes}
    (h : w.writeCompressed opcode data = .ok w') :
    ∃ c₁ c₂ head tail, w.compressedWriter.w.write (opcode :: le 8 data.length) = .ok (c₁, head) ∧
      c₁.write data = .ok (c₂, tail) ∧ w' =
        { w with
          compressedWriter := w.compressedWriter.account c₂ (frame opcode data)
          compressed := w.compressed ++ head ++ tail } := by
  unfold writeCompressed at h
  obtain ⟨⟨c, head⟩, hc, h⟩ := bind_eq_ok h
  obtain ⟨⟨c', tail⟩, hc', h⟩ := bind_eq_ok h
  obtain ⟨⟨c₁, out₁⟩, h₁, hc⟩ := bind_eq_ok hc
  cases hc
  obtain ⟨⟨c₂, out₂⟩, h₂, hc'⟩ := bind_eq_ok hc'
  cases hc'
  cases h
  refine ⟨c₁, c₂, _, _, h₁, h₂, ?_⟩
  rw [CountingCRCWriter.account_account]
  rfl

omit [ResettableWriteCloser κ] in
theorem isEmpty_of_mem_activeIndexes {idx : MessageIndex}
    (h : idx ∈ w.activeIndexes) : idx.isEmpty = false := by
  unfold activeIndexes at h
  split at h
  · cases h
  · obtain ⟨id, -, hid⟩ := List.mem_filterMap.mp h
    have hfilter := (Option.filter_eq_some_iff.mp hid).2
    simpa using hfilter

/-- **What a flush does**, if there is something to flush. -/
theorem flushActiveChunk_eq_ok {w' : Writer κ} (hsize : w.compressedWriter.size ≠ 0)
    (h : w.flushActiveChunk = .ok w') :
    ∃ c tail index, w.compressedWriter.w.close = .ok (c, tail) ∧ w' =
      { w with
        w := w.w.write (frame op.CHUNK (w.activeChunk tail).body ++
          frames (w.activeIndexes.map fun idx => (op.MESSAGE_INDEX, idx.body)))
        chunkIndexes := w.chunkIndexes ++ [index]
        statistics := coverChunk w.statistics (w.activeChunk tail)
        compressed := []
        compressedWriter := { w.compressedWriter with w := c.reset, size := 0, crc := .new }
        messageIndexes := w.messageIndexes.map fun _ idx => idx.reset
        currentChunkStartTime := maxUint64
        currentChunkEndTime := 0
        currentChunkMessageCount := 0 } := by
  unfold flushActiveChunk at h
  rw [if_neg hsize] at h
  obtain ⟨⟨compressedWriter, tail⟩, hclose, h⟩ := bind_eq_ok h
  obtain ⟨⟨c, tail'⟩, hc, hclose⟩ := bind_eq_ok hclose
  cases hclose
  obtain ⟨index, hindex⟩ := writeChunkWithIndexes_eq
    { w with
      compressed := []
      compressedWriter := ({ w.compressedWriter with w := c } : CountingCRCWriter κ).reset }
    (c := w.activeChunk tail) hsize
    (fun idx (hidx : idx ∈ w.activeIndexes) => isEmpty_of_mem_activeIndexes hidx)
    (fun hskip => by simp only at hskip; simp [activeIndexes, hskip])
  refine ⟨c, tail, index, hc, ?_⟩
  cases h
  have hsame : ({ w with
      compressed := []
      compressedWriter := ({ w.compressedWriter with w := c } : CountingCRCWriter κ).reset } :
        Writer κ).activeIndexes = w.activeIndexes := rfl
  rw [hsame, hindex]
  rfl

end Writer

/-! ## The description of a writer -/

section
variable {κ : Type} [ResettableWriteCloser κ] [Packages κ] {o : WriterOptions κ} {header : Header}
  {es : List Entry} {cs : List Call} {w w' : Writer κ}

/-- **The writer shows** the entries `es` behind the header, and the calls `cs` in its open
chunk. -/
structure Shows (o : WriterOptions κ) (header : Header) (es : List Entry) (cs : List Call)
    (w : Writer κ) : Prop where
  opts : w.opts = o
  closed : w.closed = false
  sizer : w.w = .holding o.includeCRC (dataBytes o header es)
  size : w.compressedWriter.size = (callBytes cs).length
  crc : w.compressedWriter.crc = hashed o.includeCRC (callBytes cs)
  computeCRC : w.compressedWriter.computeCRC = o.includeCRC
  packing : ∃ c pieces, Begins o c ∧ pieces.flatten = callBytes cs ∧
    Packing c pieces w.compressedWriter.w w.compressed
  count : w.currentChunkMessageCount = .ofNat (messages cs).length
  start : w.currentChunkStartTime = leastTime (logTimes cs)
  end_ : w.currentChunkEndTime = greatestTime (logTimes cs)
  sound : ∀ (id : UInt16) (idx : MessageIndex), w.messageIndexes[id]? = some idx →
    idx.Sound ∧ idx.channelID = id
  indexed : ∀ id, (w.messageIndexes[id]?.map MessageIndex.entries).getD [] = indexEntries id 0 cs

theorem Shows.of_eq (h : Shows o header es cs w) (hopts : w'.opts = w.opts)
    (hclosed : w'.closed = w.closed) (hw : w'.w = w.w)
    (hcompressed : w'.compressed = w.compressed)
    (hwriter : w'.compressedWriter = w.compressedWriter)
    (hcount : w'.currentChunkMessageCount = w.currentChunkMessageCount)
    (hstart : w'.currentChunkStartTime = w.currentChunkStartTime)
    (hend : w'.currentChunkEndTime = w.currentChunkEndTime)
    (hindexes : w'.messageIndexes = w.messageIndexes) : Shows o header es cs w' where
  opts := hopts.trans h.opts
  closed := hclosed.trans h.closed
  sizer := hw.trans h.sizer
  size := by rw [hwriter, h.size]
  crc := by rw [hwriter, h.crc]
  computeCRC := by rw [hwriter, h.computeCRC]
  packing := by rw [hwriter, hcompressed]; exact h.packing
  count := hcount.trans h.count
  start := hstart.trans h.start
  end_ := hend.trans h.end_
  sound := by rw [hindexes]; exact h.sound
  indexed := by rw [hindexes]; exact h.indexed

theorem Shows.addSchema (h : Shows o header es cs w) (s : Schema) :
    Shows o header es cs (w.addSchema s) := by
  unfold Writer.addSchema
  split
  · exact h
  · exact h.of_eq rfl rfl rfl rfl rfl rfl rfl rfl rfl

theorem Shows.addChannel (h : Shows o header es cs w) (c : Channel) :
    Shows o header es cs (w.addChannel c) := by
  unfold Writer.addChannel
  split
  · exact h
  · exact h.of_eq rfl rfl rfl rfl rfl rfl rfl rfl rfl

theorem Shows.countMessage (h : Shows o header es cs w) (m : Message) :
    Shows o header es cs (w.countMessage m) := h.of_eq rfl rfl rfl rfl rfl rfl rfl rfl rfl

theorem Shows.timeMessage (h : Shows o header es cs w) (m : Message) :
    Shows o header es cs (w.timeMessage m) := h.of_eq rfl rfl rfl rfl rfl rfl rfl rfl rfl

theorem Shows.write (h : Shows o header es cs w) {e : Entry} {bytes : Bytes}
    (hbytes : bytes = frames (e.records o)) :
    Shows o header (es ++ [e]) cs { w with w := w.w.write bytes } :=
  { h with
    sizer := by
      show w.w.write bytes = _
      rw [h.sizer, WriteSizer.write_holding, hbytes, dataBytes_append] }

theorem Shows.writeRecord (h : Shows o header es cs w) (c : Call) :
    Shows o header (es ++ [.record c]) cs (w.writeRecord c.opcode c.body) := by
  rw [Writer.writeRecord_eq]
  refine h.write ?_
  show _ = frame c.opcode c.body ++ []
  rw [List.append_nil]

theorem Shows.writeCompressed (h : Shows o header es cs w) {c : Call}
    (hmsg : c.message? = none) (hrun : w.writeCompressed c.opcode c.body = .ok w') :
    Shows o header es (cs ++ [c]) w' := by
  obtain ⟨c₁, c₂, head, tail, h₁, h₂, rfl⟩ := Writer.writeCompressed_eq_ok hrun
  have hmessages : messages (cs ++ [c]) = messages cs := by
    rw [messages_append, messages, messages, List.filterMap_cons_none hmsg, List.filterMap_nil,
      List.append_nil]
  have htimes : logTimes (cs ++ [c]) = logTimes cs := by rw [logTimes, hmessages, logTimes]
  obtain ⟨c₀, pieces, hfresh, hflat, hpacking⟩ := h.packing
  exact
    { h with
      size := by
        show w.compressedWriter.size + _ = _
        rw [h.size, callBytes_append, List.length_append]
      crc := by
        show (if w.compressedWriter.computeCRC then _ else _) = _
        rw [h.computeCRC, h.crc, callBytes_append]
        cases o.includeCRC <;> rfl
      computeCRC := h.computeCRC
      packing := by
        refine ⟨c₀, _, hfresh, ?_, (hpacking.snoc h₁).snoc h₂⟩
        rw [List.flatten_append, List.flatten_append, hflat, callBytes_append]
        simp [frame]
      count := by rw [hmessages]; exact h.count
      start := by rw [htimes]; exact h.start
      end_ := by rw [htimes]; exact h.end_
      indexed := by
        intro id
        have hentry : ∀ pos, indexEntry id pos c = [] := by
          intro pos
          cases c with
          | message m => cases hmsg
          | _ => rfl
        rw [indexEntries_append, hentry, List.append_nil]
        exact h.indexed id }

theorem Shows.writeMessage (h : Shows o header es cs w) {m : Message}
    (hrun : (w.indexMessage m).writeCompressed op.MESSAGE m.body = .ok w') :
    Shows o header es (cs ++ [.message m]) (w'.coverMessage m) := by
  obtain ⟨c₁, c₂, head, tail, h₁, h₂, rfl⟩ := Writer.writeCompressed_eq_ok hrun
  have hmessages : messages (cs ++ [.message m]) = messages cs ++ [m] := messages_append ..
  have htimes : logTimes (cs ++ [.message m]) = logTimes cs ++ [m.logTime] := logTimes_append ..
  obtain ⟨c₀, pieces, hfresh, hflat, hpacking⟩ := h.packing
  -- the index of the channel, as it was
  have hidx : (w.messageIndexes.getD m.channelID ⟨m.channelID, [], 0⟩).Sound ∧
      (w.messageIndexes.getD m.channelID ⟨m.channelID, [], 0⟩).channelID = m.channelID ∧
      (w.messageIndexes.getD m.channelID ⟨m.channelID, [], 0⟩).entries =
        indexEntries m.channelID 0 cs := by
    have hentries := h.indexed m.channelID
    rw [Std.ExtTreeMap.getD_eq_getD_getElem?]
    cases hget : w.messageIndexes[m.channelID]? with
    | none =>
      rw [hget] at hentries
      exact ⟨Nat.zero_le _, rfl, hentries⟩
    | some idx =>
      rw [hget] at hentries
      obtain ⟨hsound, hid⟩ := h.sound _ _ hget
      exact ⟨hsound, hid, hentries⟩
  obtain ⟨hsound, hid, hentries⟩ := hidx
  exact
    { opts := h.opts
      closed := h.closed
      sizer := h.sizer
      size := by
        show w.compressedWriter.size + _ = _
        rw [h.size, callBytes_append, List.length_append]
        rfl
      crc := by
        show (if w.compressedWriter.computeCRC then _ else _) = _
        rw [h.computeCRC]
        show (if _ then w.compressedWriter.crc.update _ else w.compressedWriter.crc) = _
        rw [h.crc, callBytes_append]
        cases o.includeCRC <;> rfl
      computeCRC := h.computeCRC
      packing := by
        refine ⟨c₀, _, hfresh, ?_, (hpacking.snoc h₁).snoc h₂⟩
        rw [List.flatten_append, List.flatten_append, hflat, callBytes_append]
        simp [frame, Call.opcode, Call.body]
      count := by
        show w.currentChunkMessageCount + 1 = _
        rw [h.count, hmessages, List.length_append]
        apply UInt64.toNat_inj.mp
        simp
      start := by
        show (if _ then _ else _) = _
        rw [htimes, leastTime_append, ← h.start]
        rfl
      end_ := by
        show (if _ then _ else _) = _
        rw [htimes, greatestTime_append, ← h.end_]
        rfl
      sound := by
        intro id idx hget
        show _ ∧ _
        have hget' : (w.messageIndexes.insert m.channelID _)[id]? = some idx := hget
        by_cases he : m.channelID = id
        · subst he
          rw [BTreeMap.getElem?_insert_self] at hget'
          cases hget'
          exact ⟨MessageIndex.sound_add hsound _ _, hid⟩
        · rw [BTreeMap.getElem?_insert_ne _ he] at hget'
          exact h.sound id idx hget'
      indexed := by
        intro id
        show ((w.messageIndexes.insert m.channelID _)[id]?.map _).getD [] = _
        rw [indexEntries_append]
        by_cases he : m.channelID = id
        · subst he
          rw [BTreeMap.getElem?_insert_self, Option.map_some, Option.getD_some,
            MessageIndex.entries_add hsound, hentries, Nat.zero_add, h.size, indexEntry, if_pos rfl]
        · rw [BTreeMap.getElem?_insert_ne _ he, h.indexed id, indexEntry, if_neg he,
            List.append_nil] }

theorem Shows.indexRecords (h : Shows o header es cs w) :
    (w.activeIndexes.map fun idx => (op.MESSAGE_INDEX, idx.body)) =
      if o.skipMessageIndexing then [] else indexRecords w.channelIDs cs := by
  unfold Writer.activeIndexes
  rw [h.opts]
  split
  · rfl
  · rw [List.map_filterMap, Go.indexRecords]
    congr 1
    funext id
    have hentries := h.indexed id
    cases hget : w.messageIndexes[id]? with
    | none =>
      rw [hget] at hentries
      have hnil : indexEntries id 0 cs = [] := hentries.symm
      rw [if_pos hnil]
      rfl
    | some idx =>
      rw [hget] at hentries
      obtain ⟨hsound, hid⟩ := h.sound id idx hget
      have hidx : idx.entries = indexEntries id 0 cs := hentries
      by_cases hempty : idx.isEmpty = true
      · have hnil := (MessageIndex.isEmpty_iff hsound).mp hempty
        rw [if_pos (hidx ▸ hnil), Option.filter_some_neg (by simp [hempty])]
        rfl
      · have hne : indexEntries id 0 cs ≠ [] := by
          rw [← hidx]
          exact fun hnil => hempty ((MessageIndex.isEmpty_iff hsound).mpr hnil)
        rw [if_neg hne, Option.filter_some_pos (by simp [hempty])]
        simp [MessageIndex.body, hid, hidx]

theorem Shows.activeChunk (h : Shows o header es cs w) (tail : Bytes) :
    w.activeChunk tail = chunkOf o cs (w.compressed ++ tail) := by
  unfold Writer.activeChunk chunkOf
  rw [h.count, h.start, h.end_, h.size, h.crc, h.opts]

/-- **A flush** makes an entry of the open chunk, if it holds anything. -/
theorem Shows.flush (h : Shows o header es cs w) (hcs : cs ≠ [])
    (hrun : w.flushActiveChunk = .ok w') :
    ∃ out, Packed o (callBytes cs) out ∧
      Shows o header (es ++ [.chunk cs w.channelIDs out]) [] w' ∧
      w'.statistics = Writer.coverChunk w.statistics (chunkOf o cs out) ∧
      w'.channelIDs = w.channelIDs ∧ w'.schemaIDs = w.schemaIDs ∧ w'.channels = w.channels ∧
      w'.schemas = w.schemas := by
  have hsize : w.compressedWriter.size ≠ 0 := by
    rw [h.size]
    exact fun hzero => hcs (callBytes_eq_nil.mp (List.length_eq_zero_iff.mp hzero))
  obtain ⟨c, tail, index, hclose, rfl⟩ := Writer.flushActiveChunk_eq_ok hsize hrun
  obtain ⟨c₀, pieces, hfresh, hflat, hpacking⟩ := h.packing
  refine ⟨w.compressed ++ tail, ⟨c₀, _, c, pieces, _, tail, hfresh, hflat, hpacking, hclose, rfl⟩,
    ?_, by rw [← h.activeChunk], rfl, rfl, rfl, rfl⟩
  have hbytes : frame op.CHUNK (w.activeChunk tail).body ++
      frames (w.activeIndexes.map fun idx => (op.MESSAGE_INDEX, idx.body)) =
        frames ((Entry.chunk cs w.channelIDs (w.compressed ++ tail)).records o) := by
    rw [h.indexRecords, h.activeChunk]
    rfl
  have hindexes : ∀ id : UInt16, (w.messageIndexes.map fun _ idx => idx.reset)[id]? =
      w.messageIndexes[id]?.map MessageIndex.reset := fun id => Std.ExtTreeMap.getElem?_map
  exact
    { opts := h.opts
      closed := h.closed
      sizer := (h.write hbytes).sizer
      size := rfl
      crc := by cases o.includeCRC <;> rfl
      computeCRC := h.computeCRC
      packing := ⟨c.reset, [], hfresh.again hpacking hclose, rfl, .nil⟩
      count := rfl
      start := rfl
      end_ := rfl
      sound := by
        intro id idx hget
        have hget' := (hindexes id).symm.trans hget
        obtain ⟨idx', hidx', rfl⟩ := Option.map_eq_some_iff.mp hget'
        exact ⟨idx'.sound_reset, (h.sound id idx' hidx').2⟩
      indexed := by
        intro id
        show ((w.messageIndexes.map fun _ idx => idx.reset)[id]?.map _).getD [] = []
        rw [hindexes]
        cases w.messageIndexes[id]? <;> rfl }

end

/-! ## One call -/

/-- The statistics and the tables of schemas and channels. -/
structure Books where
  statistics : Statistics
  channelIDs : List UInt16
  schemaIDs : List UInt16
  channels : BTreeMap UInt16 Channel
  schemas : BTreeMap UInt16 Schema

namespace Writer
variable {κ : Type} {w w' : Writer κ}

/-- The books of a writer. -/
def books (w : Writer κ) : Books := ⟨w.statistics, w.channelIDs, w.schemaIDs, w.channels, w.schemas⟩

/-- A chunk was written, if there is one. -/
def covered (w : Writer κ) : Option Chunk → Writer κ
  | none => w
  | some c => { w with statistics := coverChunk w.statistics c }

theorem books_addSchema (h : w'.books = w.books) (s : Schema) :
    (w'.addSchema s).books = (w.addSchema s).books := by
  obtain ⟨h₁, h₂, h₃, h₄, h₅⟩ := Books.mk.injEq .. ▸ h
  unfold addSchema
  rw [h₅]
  split
  · exact h
  · simp only [books, h₁, h₂, h₃, h₄]

theorem books_addChannel (h : w'.books = w.books) (c : Channel) :
    (w'.addChannel c).books = (w.addChannel c).books := by
  obtain ⟨h₁, h₂, h₃, h₄, h₅⟩ := Books.mk.injEq .. ▸ h
  unfold addChannel
  rw [h₄]
  split
  · exact h
  · simp only [books, h₁, h₂, h₃, h₅]

theorem books_timeMessage (h : w'.books = w.books) (m : Message) :
    (w'.timeMessage m).books = (w.timeMessage m).books := by
  obtain ⟨h₁, h₂, h₃, h₄, h₅⟩ := Books.mk.injEq .. ▸ h
  simp only [books, timeMessage, h₁, h₂, h₃, h₄, h₅]

end Writer

/-- What a call that writes the chunk `flushed`, or none, leaves in the books. -/
def Writer.Leaves {κ : Type} (w : Writer κ) (flushed : Option Chunk) : Call → Books → Prop
  | .schema s, b => s.id ≠ 0 ∧ b = (w.addSchema s).books
  | .channel c, b => (c.schemaID ≠ 0 → w.schemas.contains c.schemaID = true) ∧
      b = (w.addChannel c).books
  | .message m, b => w.channels.contains m.channelID = true ∧
      b = (((w.countMessage m).covered flushed).timeMessage m).books
  | .attachment a, b => a.data.length = a.dataSize.toNat ∧ b =
      { w.books with statistics :=
        { w.statistics with attachmentCount := w.statistics.attachmentCount + 1 } }
  | .metadata _, b => b =
      { w.books with statistics :=
        { w.statistics with metadataCount := w.statistics.metadataCount + 1 } }

/-- The open chunk is over the size that is set. -/
def Full {κ : Type} (o : WriterOptions κ) (cs : List Call) : Prop :=
  o.chunkSize < (callBytes cs).length

/-- What a call adds: a top-level record, a record in the open chunk, or a record with which
the open chunk is full and becomes an entry.  `ids` are the channels of the writer, and
`flushed` is the chunk that was written. -/
inductive Adds {κ : Type} [ResettableWriteCloser κ] [Packages κ] (o : WriterOptions κ)
    (ids : List UInt16) (c : Call) (es : List Entry) (cs : List Call) :
    List Entry → List Call → Option Chunk → Prop
  | record (h : (o.chunked && c.inChunk) = false) : Adds o ids c es cs (es ++ [.record c]) cs none
  | active (h : o.chunked = true) (hc : c.inChunk = true)
      (hfull : ∀ m, c = .message m → ¬ Full o (cs ++ [c])) : Adds o ids c es cs es (cs ++ [c]) none
  | chunk {m : Message} {out : Bytes} (h : o.chunked = true) (hc : c = .message m)
      (hfull : Full o (cs ++ [c])) (hout : Packed o (callBytes (cs ++ [c])) out) :
      Adds o ids c es cs (es ++ [.chunk (cs ++ [c]) ids out]) [] (some (chunkOf o (cs ++ [c]) out))

section
variable {κ : Type} [ResettableWriteCloser κ] [Packages κ] {o : WriterOptions κ} {header : Header}
  {es : List Entry} {cs : List Call} {w w' : Writer κ} {opts : WriterOptions κ}

theorem Shows.writeData (h : Shows o header es cs w) {c : Call} (hmsg : c.message? = none)
    (hc : c.inChunk = true) (hrun : w.writeData c.opcode c.body = .ok w') (ids : List UInt16) :
    ∃ es' cs', Adds o ids c es cs es' cs' none ∧ Shows o header es' cs' w' ∧
      w'.books = w.books := by
  unfold Writer.writeData at hrun
  rw [h.opts, h.closed] at hrun
  split at hrun
  · rename_i hchunked
    have hshows := h.writeCompressed hmsg hrun
    obtain ⟨c₁, c₂, head, tail, -, -, rfl⟩ := Writer.writeCompressed_eq_ok hrun
    refine ⟨es, cs ++ [c], .active (by simpa using hchunked) hc ?_, hshows, rfl⟩
    rintro m rfl
    cases hmsg
  · rename_i hchunked
    cases hrun
    refine ⟨_, cs, .record ?_, h.writeRecord c, rfl⟩
    have hfalse : o.chunked = false := by simpa using hchunked
    rw [hfalse]
    rfl

theorem attachment_bytes {a : Attachment} (h : a.data.length = a.dataSize.toNat) :
    op.ATTACHMENT :: u64 (Writer.attachmentLength a - 9) ++ a.top ++ a.data ++
      u32 ((Hasher.new.update a.top).update a.data).finalize = frame op.ATTACHMENT a.body := by
  have htop : a.top.length = 32 + a.name.length + a.mediaType.length := by
    simp only [Attachment.top, putPrefixedString, List.length_append, length_u64, length_le]
    omega
  have hlen : Writer.attachmentLength a - 9 = .ofNat a.body.length := by
    have hbody : a.body.length = a.top.length + a.dataSize.toNat + 4 := by
      simp only [Attachment.body, List.length_append, length_u32, h]
      omega
    apply UInt64.toNat_inj.mp
    rw [hbody, htop, Writer.attachmentLength]
    simp only [UInt64.toNat_sub, UInt64.toNat_add, UInt64.toNat_ofNat', UInt64.reduceToNat]
    omega
  rw [hlen, u64_ofNat]
  simp [frame, Attachment.body, Hasher.finalize]

/-- **What a call does** to a writer: what it adds, and what it changes in the books. -/
theorem Shows.run (h : Shows o header es cs w) {c : Call} (hrun : c.run w = .ok w') :
    ∃ es' cs' flushed, Adds o w.channelIDs c es cs es' cs' flushed ∧ Shows o header es' cs' w' ∧
      w.Leaves flushed c w'.books := by
  cases c with
  | schema s =>
    have hrun' : w.writeSchema s = .ok w' := hrun
    unfold Writer.writeSchema at hrun'
    by_cases hid : s.id = 0
    · rw [if_pos hid] at hrun'
      cases hrun'
    · rw [if_neg hid] at hrun'
      obtain ⟨w₁, hdata, hrun'⟩ := bind_eq_ok hrun'
      cases hrun'
      obtain ⟨es', cs', hadds, hshows, hbooks⟩ :=
        h.writeData (c := .schema s) rfl rfl hdata w.channelIDs
      exact ⟨es', cs', none, hadds, hshows.addSchema s, hid, Writer.books_addSchema hbooks s⟩
  | channel c =>
    have hrun' : w.writeChannel c = .ok w' := hrun
    unfold Writer.writeChannel at hrun'
    by_cases hknown : 0 < c.schemaID ∧ ¬ w.schemas.contains c.schemaID
    · rw [if_pos hknown] at hrun'
      cases hrun'
    · rw [if_neg hknown] at hrun'
      obtain ⟨w₁, hdata, hrun'⟩ := bind_eq_ok hrun'
      cases hrun'
      obtain ⟨es', cs', hadds, hshows, hbooks⟩ :=
        h.writeData (c := .channel c) rfl rfl hdata w.channelIDs
      refine ⟨es', cs', none, hadds, hshows.addChannel c, fun hne => ?_,
        Writer.books_addChannel hbooks c⟩
      by_contra hcon
      exact hknown ⟨UInt16.pos_iff_ne_zero.mpr hne, hcon⟩
  | message m =>
    have hrun' : w.writeMessage m = .ok w' := hrun
    unfold Writer.writeMessage at hrun'
    by_cases hknown : w.channels.contains m.channelID = true
    · rw [if_neg (by simpa using hknown)] at hrun'
      obtain ⟨w₂, hbody, hrun'⟩ := bind_eq_ok hrun'
      cases hrun'
      have hcount := h.countMessage m
      unfold Writer.writeMessageRecord at hbody
      rw [hcount.opts, hcount.closed] at hbody
      split at hbody
      · rename_i hchunked
        have hchunked : o.chunked = true := by simpa using hchunked
        obtain ⟨w₁, hwrite, hbody⟩ := bind_eq_ok hbody
        have hshows := hcount.writeMessage hwrite
        have hbooks : (w₁.coverMessage m).books = (w.countMessage m).books := by
          obtain ⟨c₁, c₂, head, tail, -, -, rfl⟩ := Writer.writeCompressed_eq_ok hwrite
          rfl
        have hsize := hshows.size
        simp only at hbody
        split at hbody
        · rename_i hfull
          rw [hsize, hshows.opts] at hfull
          obtain ⟨out, hout, hflushed, hstats, hids, hsids, hchannels, hschemas⟩ :=
            hshows.flush (by simp) hbody
          obtain ⟨h₁, h₂, h₃, h₄, h₅⟩ := Books.mk.injEq .. ▸ hbooks
          rw [h₂] at hflushed
          refine ⟨_, _, _, .chunk hchunked rfl hfull hout, hflushed.timeMessage m, hknown,
            Writer.books_timeMessage ?_ m⟩
          rw [Writer.books, hstats, hids, hsids, hchannels, hschemas, h₁, h₂, h₃, h₄, h₅]
          rfl
        · rename_i hfull
          cases hbody
          rw [hsize, hshows.opts] at hfull
          exact ⟨es, _, none, .active hchunked rfl fun _ _ => hfull, hshows.timeMessage m, hknown,
            Writer.books_timeMessage hbooks m⟩
      · rename_i hchunked
        cases hbody
        have hfalse : o.chunked = false := by simpa using hchunked
        refine ⟨_, cs, none, .record (by rw [hfalse]; rfl),
          (hcount.writeRecord (.message m)).timeMessage m, hknown, rfl⟩
    · rw [if_pos (by simpa using hknown)] at hrun'
      cases hrun'
  | attachment a =>
    have hrun' : w.writeAttachment a = .ok w' := hrun
    unfold Writer.writeAttachment at hrun'
    by_cases hsize : a.data.length = a.dataSize.toNat
    · simp only [hsize, ne_eq, not_true_eq_false, if_false] at hrun'
      cases hrun'
      refine ⟨_, cs, none, .record (by simp [Call.inChunk]), ?_, hsize, rfl⟩
      refine (h.writeRecord (.attachment a)).of_eq rfl rfl ?_ rfl rfl rfl rfl rfl rfl
      rw [Writer.writeRecord_eq]
      show WriteSizer.write _ _ = _
      simp only [WriteSizer.write_write, attachment_bytes hsize]
      rfl
    · simp only [hsize, ne_eq, not_false_eq_true, if_true] at hrun'
      cases hrun'
  | metadata m =>
    cases hrun
    exact ⟨_, cs, none, .record (by simp [Call.inChunk]),
      (h.writeRecord (.metadata m)).of_eq rfl rfl rfl rfl rfl rfl rfl rfl rfl, rfl⟩

/-! ## Sessions -/

/-- The options of a writer: those it was made with, up to the compression and the chunk size
that `NewWriter` fills in. -/
def Settled (opts o : WriterOptions κ) : Prop :=
  o = opts ∧ opts.chunked = false ∨ ∃ c compression, chooseCompressor opts = .ok (c, compression) ∧
    o = opts.adjusted compression ∧ opts.chunked = true

/-- The books of a new writer. -/
def Books.empty : Books := ⟨.zero, [], [], ∅, ∅⟩

theorem shows_start (h : newWriter opts = .ok w) (header : Header) :
    Settled opts w.opts ∧ Shows w.opts header [] [] (w.writeHeader header) ∧
      (w.writeHeader header).books = .empty := by
  -- the same for the options that are settled on and a compressor that is fresh
  have hstart : ∀ (o : WriterOptions κ) (c : Compressor κ), Begins o c →
      Shows o header [] [] ((Writer.start o c).writeHeader header) := by
    intro o c hc
    rw [Writer.writeHeader, Writer.writeRecord_eq]
    exact
      { opts := rfl
        closed := rfl
        sizer := by
          show WriteSizer.write (if o.skipMagic then _ else _) _ = _
          rw [WriteSizer.new_eq, dataBytes, headBytes]
          cases o.skipMagic <;> simp [dataRecords] <;> rfl
        size := rfl
        crc := by
          show Hasher.new = _
          cases o.includeCRC <;> rfl
        computeCRC := rfl
        packing := ⟨c, [], hc, rfl, .nil⟩
        count := rfl
        start := rfl
        end_ := rfl
        sound := by
          intro id idx hget
          have hnone : (∅ : BTreeMap UInt16 MessageIndex)[id]? = some idx := hget
          rw [Std.ExtTreeMap.getElem?_empty] at hnone
          cases hnone
        indexed := by
          intro id
          show ((∅ : BTreeMap UInt16 MessageIndex)[id]?.map _).getD [] = []
          rw [Std.ExtTreeMap.getElem?_empty]
          rfl }
  unfold newWriter at h
  split at h
  · rename_i hchunked
    obtain ⟨⟨c, compression⟩, hchoose, h⟩ := bind_eq_ok h
    cases h
    exact ⟨.inr ⟨c, compression, hchoose, rfl, hchunked⟩, hstart _ c (.new (chosen hchoose).2), rfl⟩
  · rename_i hchunked
    cases h
    have hoff : opts.chunked = false := by simpa using hchunked
    exact ⟨.inl ⟨rfl, hoff⟩, hstart _ _ (.unchunked hoff), rfl⟩

/-- `Written opts header calls w`: a writer was made, the header was written and the calls were
made, all with success, and `w` is the writer now. -/
inductive Written (opts : WriterOptions κ) (header : Header) : List Call → Writer κ → Prop
  | start {w : Writer κ} (h : newWriter opts = .ok w) : Written opts header [] (w.writeHeader header)
  | call {calls : List Call} {c : Call} {w w' : Writer κ} (h : Written opts header calls w)
      (hc : c.run w = .ok w') : Written opts header (calls ++ [c]) w'

theorem written_of_foldlM {calls before : List Call} (h : Written opts header before w)
    (hrun : calls.foldlM (fun w call => call.run w) w = .ok w') :
    Written opts header (before ++ calls) w' := by
  induction calls generalizing before w with
  | nil =>
    cases hrun
    rwa [List.append_nil]
  | cons c calls ih =>
    rw [List.foldlM_cons] at hrun
    obtain ⟨w₁, hc, hrun⟩ := bind_eq_ok hrun
    have hall := ih (h.call hc) hrun
    rwa [List.append_assoc] at hall

theorem written_of_writeFile {calls : List Call} (h : writeFile opts header calls = .ok w') :
    ∃ w, Written opts header calls w ∧ w.close = .ok w' := by
  unfold writeFile at h
  obtain ⟨w₀, hnew, h⟩ := bind_eq_ok h
  obtain ⟨w₁, hcalls, hclose⟩ := bind_eq_ok h
  exact ⟨w₁, written_of_foldlM (.start hnew) hcalls, hclose⟩

end

end Go
end Mcap

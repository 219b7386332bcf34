import Mcap.GoRecords

/-! # The parsers of the Go library

The functions of `parse.go`, and the accessors of `utils.go` and `reader.go` that they call.
A buffer is walked over by offsets; `buf[offset:]` is out of range, and a panic, if the offset is
past the end.  A loop ends because each of its turns moves the offset or fails, so that one more
turn than there are bytes in the buffer is enough fuel.

The second half reads back what `GoRecords` puts together: `Rest buf offset bs` says which bytes
are left at an offset, and each accessor moves on over its own field.
-/
namespace Mcap
namespace Go

/-! ## Accessors -/

/-- The little-endian integer of `w` bytes at an offset. -/
def getUint (w : Nat) (buf : Bytes) (offset : Nat) : Res Error (Nat × Nat) :=
  if buf.length < offset + w then .err .shortBuffer
  else .ok (ofLe ((buf.drop offset).take w), offset + w)

/-- `getUint16`. -/
def getUint16 (buf : Bytes) (offset : Nat) : Res Error (UInt16 × Nat) := do
  let (x, offset) ← getUint 2 buf offset
  pure (.ofNat x, offset)

/-- `getUint32`. -/
def getUint32 (buf : Bytes) (offset : Nat) : Res Error (UInt32 × Nat) := do
  let (x, offset) ← getUint 4 buf offset
  pure (.ofNat x, offset)

/-- `getUint64`. -/
def getUint64 (buf : Bytes) (offset : Nat) : Res Error (UInt64 × Nat) := do
  let (x, offset) ← getUint 8 buf offset
  pure (.ofNat x, offset)

/-- `getPrefixedString` and `getPrefixedBytes`. -/
def getPrefixedString (data : Bytes) (offset : Nat) : Res Error (Bytes × Nat) :=
  if data.length < offset then .panic
  else if (data.drop offset).length < 4 then .err .shortBuffer
  else
    let length := ofLe ((data.drop offset).take 4)
    if (data.drop (offset + 4)).length < length then .err .shortBuffer
    else .ok ((data.drop (offset + 4)).take length, offset + 4 + length)

/-- The loop of a parser: `step` takes the state and the offset to the next ones, as long as
`more` holds of the offset. -/
def loop {β : Type} (more : Nat → Bool) (step : β → Nat → Res Error (β × Nat)) :
    Nat → β → Nat → Res Error (β × Nat)
  | 0, b, offset => .ok (b, offset)
  | fuel + 1, b, offset =>
      if more offset then do
        let (b, offset) ← step b offset
        loop more step fuel b offset
      else .ok (b, offset)

/-- `getPrefixedMap`. -/
def getPrefixedMap (data : Bytes) (offset : Nat) : Res Error (BTreeMap Bytes Bytes × Nat) := do
  let (maplen, offset) ← wrap "failed to read map length" (getUint32 data offset)
  let (m, inset) ← loop
    (fun inset => UInt32.ofNat (offset + inset) < UInt32.ofNat offset + maplen)
    (fun m inset => do
      let (key, inset) ← wrap "failed to read map key" (getPrefixedString (data.drop offset) inset)
      let (value, inset) ← wrap "failed to read map value"
        (getPrefixedString (data.drop offset) inset)
      pure (m.insert key value, inset))
    (data.length + 1) (∅ : BTreeMap Bytes Bytes) 0
  pure (m, offset + inset)

/-! ## Parsers -/

/-- `ParseHeader`. -/
def parseHeader (buf : Bytes) : Res Error Header := do
  let (profile, offset) ← wrap "failed to read profile" (getPrefixedString buf 0)
  let (library, _) ← wrap "failed to read library" (getPrefixedString buf offset)
  pure { profile, library }

/-- `ParseFooter`. -/
def parseFooter (buf : Bytes) : Res Error Footer := do
  let (summaryStart, offset) ← wrap "failed to read summary start" (getUint64 buf 0)
  let (summaryOffsetStart, offset) ← wrap "failed to read summary offset start"
    (getUint64 buf offset)
  let (summaryCRC, _) ← wrap "failed to read summary CRC" (getUint32 buf offset)
  pure { summaryStart, summaryOffsetStart, summaryCRC }

/-- `ParseSchema`. -/
def parseSchema (buf : Bytes) : Res Error Schema := do
  let (id, offset) ← wrap "failed to read schema ID" (getUint16 buf 0)
  let (name, offset) ← wrap "failed to read schema name" (getPrefixedString buf offset)
  let (encoding, offset) ← wrap "failed to read encoding" (getPrefixedString buf offset)
  let (data, _) ← wrap "failed to read schema data" (getPrefixedString buf offset)
  pure { id, name, encoding, data }

/-- `ParseChannel`. -/
def parseChannel (buf : Bytes) : Res Error Channel := do
  let (id, offset) ← wrap "failed to read channel id" (getUint16 buf 0)
  let (schemaID, offset) ← wrap "failed to read schema ID" (getUint16 buf offset)
  let (topic, offset) ← wrap "failed to read topic name" (getPrefixedString buf offset)
  let (messageEncoding, offset) ← wrap "failed to read message encoding"
    (getPrefixedString buf offset)
  let (metadata, _) ← wrap "failed to read metadata" (getPrefixedMap buf offset)
  pure { id, schemaID, topic, messageEncoding, metadata }

/-- `ParseMessage`, which is `PopulateFrom` on an empty message. -/
def parseMessage (buf : Bytes) : Res Error Message := do
  let (channelID, offset) ← wrap "failed to read channel ID" (getUint16 buf 0)
  let (sequence, offset) ← wrap "failed to read sequence" (getUint32 buf offset)
  let (logTime, offset) ← wrap "failed to read record time" (getUint64 buf offset)
  let (publishTime, offset) ← wrap "failed to read publish time" (getUint64 buf offset)
  if buf.length < offset then .panic
  else pure { channelID, sequence, logTime, publishTime, data := buf.drop offset }

/-- `ParseMessageIndex`.  The end of the entries is computed in 32 bits. -/
def parseMessageIndex (buf : Bytes) : Res Error MessageIndex := do
  let (channelID, offset) ← wrap "failed to read channel ID" (getUint16 buf 0)
  let (entriesByteLength, start) ← wrap "failed to read message index entries byte length"
    (getUint32 buf offset)
  let (records, _) ← loop
    (fun offset => UInt32.ofNat offset < UInt32.ofNat start + entriesByteLength)
    (fun records offset => do
      let (timestamp, offset) ← wrap "failed to read message index entry stamp"
        (getUint64 buf offset)
      let (value, offset) ← wrap "failed to read message index entry value" (getUint64 buf offset)
      pure (records ++ [⟨timestamp, value⟩], offset))
    (buf.length + 1) [] start
  pure { channelID, records, currentIndex := records.length }

/-- The loop that reads a map from channel ids, `length` bytes from `start` on. -/
def getChannelEntries (ctxKey ctxValue : String) (buf : Bytes) (start length : Nat) :
    Res Error (BTreeMap UInt16 UInt64 × Nat) :=
  loop (fun offset => offset < start + length)
    (fun m offset => do
      let (channelID, offset) ← wrap ctxKey (getUint16 buf offset)
      let (value, offset) ← wrap ctxValue (getUint64 buf offset)
      pure (m.insert channelID value, offset))
    (buf.length + 1) ∅ start

/-- `ParseChunkIndex`. -/
def parseChunkIndex (buf : Bytes) : Res Error ChunkIndex := do
  let (messageStartTime, offset) ← wrap "failed to read start time" (getUint64 buf 0)
  let (messageEndTime, offset) ← wrap "failed to read end time" (getUint64 buf offset)
  let (chunkStartOffset, offset) ← wrap "failed to read chunk start offset" (getUint64 buf offset)
  let (chunkLength, offset) ← wrap "failed to read chunk length" (getUint64 buf offset)
  let (msgIndexOffsetsLen, offset) ← wrap "failed to read message index length"
    (getUint32 buf offset)
  let (messageIndexOffsets, inset) ← getChannelEntries "failed to read channel ID"
    "failed to read index offset" (buf.drop offset) 0 msgIndexOffsetsLen.toNat
  let (messageIndexLength, offset) ← wrap "failed to read message index length"
    (getUint64 buf (offset + inset))
  let (compression, offset) ← wrap "failed to read compression" (getPrefixedString buf offset)
  let (compressedSize, offset) ← wrap "failed to read compressed size" (getUint64 buf offset)
  let (uncompressedSize, _) ← wrap "failed to read uncompressed size" (getUint64 buf offset)
  pure { messageStartTime, messageEndTime, chunkStartOffset, chunkLength, messageIndexOffsets,
         messageIndexLength, compression, compressedSize, uncompressedSize }

/-- `ParseAttachmentIndex`. -/
def parseAttachmentIndex (buf : Bytes) : Res Error AttachmentIndex := do
  let (offset, o) ← wrap "failed to read attachment offset" (getUint64 buf 0)
  let (length, o) ← wrap "failed to read attachment length" (getUint64 buf o)
  let (logTime, o) ← wrap "failed to read record time" (getUint64 buf o)
  let (createTime, o) ← wrap "failed to read create time" (getUint64 buf o)
  let (dataSize, o) ← wrap "failed to read data size" (getUint64 buf o)
  let (name, o) ← wrap "failed to read attachment name" (getPrefixedString buf o)
  let (mediaType, _) ← wrap "failed to read media type" (getPrefixedString buf o)
  pure { offset, length, logTime, createTime, dataSize, name, mediaType }

/-- The least length of a statistics record. -/
def statisticsMinLength : Nat := 8 + 2 + 4 + 4 + 4 + 4 + 4 + 8 + 8

/-- The text of the error for a short statistics record. -/
def shortStatistics (length : Nat) : String :=
  "short statistics record " ++ toString length ++ " < " ++ toString statisticsMinLength

/-- `ParseStatistics`. -/
def parseStatistics (buf : Bytes) : Res Error Statistics := do
  if buf.length < statisticsMinLength then
    .err (.wrapped (shortStatistics buf.length) .shortBuffer)
  else
    let (messageCount, offset) ← wrap "failed to read message count" (getUint64 buf 0)
    let (schemaCount, offset) ← wrap "failed to read schema count" (getUint16 buf offset)
    let (channelCount, offset) ← wrap "failed to read channel count" (getUint32 buf offset)
    let (attachmentCount, offset) ← wrap "failed to read attachment count" (getUint32 buf offset)
    let (metadataCount, offset) ← wrap "failed to read metadata count" (getUint32 buf offset)
    let (chunkCount, offset) ← wrap "failed to read chunk count" (getUint32 buf offset)
    let (messageStartTime, offset) ← wrap "failed to read message start time"
      (getUint64 buf offset)
    let (messageEndTime, offset) ← wrap "failed to read message end time" (getUint64 buf offset)
    let (channelMessageCountLength, start) ← wrap "failed to read message count length"
      (getUint32 buf offset)
    if buf.length < start + channelMessageCountLength.toNat then
      .err (.wrapped "short channel message count lengths" .shortBuffer)
    else
      let (channelMessageCounts, _) ← getChannelEntries
        "failed to read message count channel ID" "failed to read channel message count" buf start
        channelMessageCountLength.toNat
      pure { messageCount, schemaCount, channelCount, attachmentCount, metadataCount, chunkCount,
             messageStartTime, messageEndTime, channelMessageCounts }

/-- `ParseMetadata`. -/
def parseMetadata (buf : Bytes) : Res Error Metadata := do
  let (name, offset) ← wrap "failed to read metadata name" (getPrefixedString buf 0)
  let (metadata, _) ← wrap "failed to read metadata" (getPrefixedMap buf offset)
  pure { name, metadata }

/-- `ParseMetadataIndex`. -/
def parseMetadataIndex (buf : Bytes) : Res Error MetadataIndex := do
  let (offset, o) ← wrap "failed to read metadata offset" (getUint64 buf 0)
  let (length, o) ← wrap "failed to read metadata length" (getUint64 buf o)
  let (name, _) ← wrap "failed to read metadata name" (getPrefixedString buf o)
  pure { offset, length, name }

/-! ## Reading back -/

section
variable {buf : Bytes} {offset : Nat} {rest : Bytes}

/-- The bytes of the buffer from an offset on, which is not past its end. -/
structure Rest (buf : Bytes) (offset : Nat) (bs : Bytes) : Prop where
  drop : buf.drop offset = bs
  le : offset ≤ buf.length

theorem Rest.start (buf : Bytes) : Rest buf 0 buf := ⟨rfl, Nat.zero_le _⟩

theorem Rest.length {bs : Bytes} (h : Rest buf offset bs) : offset + bs.length = buf.length := by
  rw [← h.drop, List.length_drop]
  have hle := h.le
  omega

theorem Rest.skip {enc : Bytes} (h : Rest buf offset (enc ++ rest)) {n : Nat}
    (hn : enc.length = n) : Rest buf (offset + n) rest where
  drop := by rw [← List.drop_drop, h.drop, ← hn, List.drop_left]
  le := by
    have hlen := h.length
    rw [List.length_append] at hlen
    omega

theorem bind_field {α β : Type} {context : String} {x : Res Error (α × Nat)} {p : α × Nat}
    {f : α × Nat → Res Error β} (h : x = .ok p) : (wrap context x >>= f) = f p := by
  rw [h]
  rfl

theorem getUint_of_rest {w n : Nat} (h : Rest buf offset (le w n ++ rest)) :
    getUint w buf offset = .ok (n % 256 ^ w, offset + w) := by
  have hlen := h.length
  rw [List.length_append, length_le] at hlen
  unfold getUint
  rw [if_neg (by omega), h.drop, List.take_left' (length_le w n), ofLe_le]

theorem getUint16_of_rest {n : UInt16} (h : Rest buf offset (u16 n ++ rest)) :
    getUint16 buf offset = .ok (n, offset + 2) := by
  unfold getUint16
  rw [getUint_of_rest (n := n.toNat) h, Nat.mod_eq_of_lt (by exact n.toNat_lt)]
  simp

theorem getUint32_of_rest {n : UInt32} (h : Rest buf offset (u32 n ++ rest)) :
    getUint32 buf offset = .ok (n, offset + 4) := by
  unfold getUint32
  rw [getUint_of_rest (n := n.toNat) h, Nat.mod_eq_of_lt (by exact n.toNat_lt)]
  simp

theorem getUint64_of_rest {n : UInt64} (h : Rest buf offset (u64 n ++ rest)) :
    getUint64 buf offset = .ok (n, offset + 8) := by
  unfold getUint64
  rw [getUint_of_rest (n := n.toNat) h, Nat.mod_eq_of_lt (by exact n.toNat_lt)]
  simp

theorem getPrefixedString_of_rest {s : Bytes} (hs : s.length < 2 ^ 32)
    (h : Rest buf offset (putPrefixedString s ++ rest)) :
    getPrefixedString buf offset = .ok (s, offset + (4 + s.length)) := by
  have hlen := h.length
  unfold putPrefixedString at h hlen
  have hle := h.le
  simp only [List.length_append, length_le] at hlen
  rw [List.append_assoc] at h
  have hs' := h.skip (length_le 4 s.length)
  have hfour : ofLe ((buf.drop offset).take 4) = s.length := by
    rw [h.drop, List.take_left' (length_le 4 s.length), ofLe_le_of_lt hs]
  unfold getPrefixedString
  rw [if_neg (by omega), if_neg (by rw [List.length_drop]; omega), hfour]
  simp only
  rw [if_neg (by rw [List.length_drop]; omega), hs'.drop, List.take_left, Nat.add_assoc]

@[simp] theorem length_putPrefixedString (s : Bytes) :
    (putPrefixedString s).length = 4 + s.length := by
  rw [putPrefixedString, List.length_append, length_le]

theorem Rest.prefixedString {s : Bytes} (h : Rest buf offset (putPrefixedString s ++ rest)) :
    Rest buf (offset + (4 + s.length)) rest := h.skip (length_putPrefixedString s)

theorem Rest.u16 {n : UInt16} (h : Rest buf offset (Mcap.u16 n ++ rest)) :
    Rest buf (offset + 2) rest := h.skip (length_u16 n)

theorem Rest.u32 {n : UInt32} (h : Rest buf offset (Mcap.u32 n ++ rest)) :
    Rest buf (offset + 4) rest := h.skip (length_u32 n)

theorem Rest.u64 {n : UInt64} (h : Rest buf offset (Mcap.u64 n ++ rest)) :
    Rest buf (offset + 8) rest := h.skip (length_u64 n)

/-- **A loop over encoded elements** reads all of them, in order.  The condition holds in front
of each of them, and no longer behind the last. -/
theorem loop_of_rest {α β : Type} {more : Nat → Bool} {step : β → Nat → Res Error (β × Nat)}
    (enc : α → Bytes) (next : β → α → β)
    (hstep : ∀ b x offset rest, Rest buf offset (enc x ++ rest) →
      step b offset = .ok (next b x, offset + (enc x).length))
    {stop : Nat} (hstop : more stop = false) (xs : List α)
    (hmore : ∀ x ∈ xs, ∀ offset, offset + (enc x).length ≤ stop → more offset = true) (b : β)
    (fuel : Nat) (hfuel : xs.length < fuel) (h : Rest buf offset (xs.flatMap enc ++ rest))
    (hend : offset + (xs.flatMap enc).length = stop) :
    loop more step fuel b offset = .ok (xs.foldl next b, stop) := by
  induction xs generalizing b fuel offset with
  | nil =>
    obtain _ | fuel := fuel
    · omega
    · obtain rfl : offset = stop := by simpa using hend
      rw [loop, hstop]
      rfl
  | cons x xs ih =>
    obtain _ | fuel := fuel
    · omega
    · rw [List.flatMap_cons, List.length_append] at hend
      rw [List.flatMap_cons, List.append_assoc] at h
      have htrue := hmore x List.mem_cons_self offset (by omega)
      rw [loop, if_pos htrue, hstep b x offset _ h]
      exact ih (fun y hy => hmore y (List.mem_cons_of_mem _ hy)) (next b x) fuel
        (by simpa using hfuel) (h.skip rfl) (by omega)

end

/-! ### Schemas, channels and messages -/

theorem Rest.whole (bs : Bytes) : Rest bs 0 (bs ++ []) := by
  rw [List.append_nil]
  exact .start bs

theorem parseMessage_body (m : Message) : parseMessage m.body = .ok m := by
  have h0 := Rest.start m.body
  have h1 := h0.u16
  have h2 := h1.u32
  have h3 := h2.u64
  have h4 := h3.u64
  refine (bind_field (getUint16_of_rest h0)).trans ((bind_field (getUint32_of_rest h1)).trans ?_)
  refine (bind_field (getUint64_of_rest h2)).trans ((bind_field (getUint64_of_rest h3)).trans ?_)
  have hle := h4.le
  simp only
  rw [if_neg (by omega), h4.drop]
  rfl

theorem parseHeader_body {h : Header} (hbuf : h.body.length < 2 ^ 32) :
    parseHeader h.body = .ok h := by
  have hlen : h.body.length = (4 + h.profile.length) + (4 + h.library.length) := by
    simp [Header.body]
  have h0 := Rest.start h.body
  have h1 := h0.prefixedString
  rw [← List.append_nil (putPrefixedString h.library)] at h1
  refine (bind_field (getPrefixedString_of_rest (by omega) h0)).trans ?_
  exact (bind_field (getPrefixedString_of_rest (by omega) h1)).trans rfl

theorem parseSchema_body {s : Schema} (h : s.body.length < 2 ^ 32) : parseSchema s.body = .ok s := by
  have hlen : s.body.length = 2 + (4 + s.name.length) + (4 + s.encoding.length) +
      (4 + s.data.length) := by
    simp [Schema.body]
    omega
  have h0 := Rest.start s.body
  have h1 := h0.u16
  have h2 := h1.prefixedString
  have h3 := h2.prefixedString
  rw [← List.append_nil (putPrefixedString s.data)] at h3
  refine (bind_field (getUint16_of_rest h0)).trans ?_
  refine (bind_field (getPrefixedString_of_rest (by omega) h1)).trans ?_
  refine (bind_field (getPrefixedString_of_rest (by omega) h2)).trans ?_
  exact (bind_field (getPrefixedString_of_rest (by omega) h3)).trans rfl

@[simp] theorem length_mapEntry (e : Bytes × Bytes) :
    (mapEntry e).length = 8 + e.1.length + e.2.length := by
  simp only [mapEntry, List.length_append, length_putPrefixedString]
  omega

theorem getPrefixedMap_of_rest {buf : Bytes} {offset : Nat} {m : BTreeMap Bytes Bytes}
    (hbuf : buf.length < 2 ^ 32) (h : Rest buf offset (makePrefixedMap m)) :
    getPrefixedMap buf offset = .ok (m, buf.length) := by
  obtain ⟨entries, hentries⟩ : ∃ entries, entries = m.toList.flatMap mapEntry := ⟨_, rfl⟩
  have hlen := h.length
  have hbytes : makePrefixedMap m = le 4 entries.length ++ entries := by
    rw [hentries]
    rfl
  rw [hbytes, List.length_append, length_le] at hlen
  rw [hbytes] at h
  have hrest := h.skip (length_le 4 _)
  have hmaplen : getUint32 buf offset = .ok (.ofNat entries.length, offset + 4) := by
    unfold getUint32
    rw [getUint_of_rest h, Nat.mod_eq_of_lt (by omega)]
    rfl
  have hsum : (UInt32.ofNat (offset + 4) + UInt32.ofNat entries.length).toNat = buf.length := by
    rw [UInt32.toNat_add, UInt32.toNat_ofNat', UInt32.toNat_ofNat']
    omega
  have hmore : ∀ inset, inset ≤ entries.length →
      (decide (UInt32.ofNat (offset + 4 + inset) <
        UInt32.ofNat (offset + 4) + UInt32.ofNat entries.length) =
          decide (inset < entries.length)) := by
    intro inset hle
    rw [decide_eq_decide, UInt32.lt_iff_toNat_lt, hsum, UInt32.toNat_ofNat']
    omega
  have hinner : Rest (buf.drop (offset + 4)) 0 (m.toList.flatMap mapEntry ++ []) := by
    rw [hrest.drop, hentries]
    exact .whole _
  have hcount : m.toList.length ≤ entries.length := by
    rw [hentries, List.length_flatMap, ← List.length_map (f := fun e => (mapEntry e).length)]
    refine List.length_le_sum_of_one_le _ fun n hn => ?_
    obtain ⟨e, -, rfl⟩ := List.mem_map.mp hn
    rw [length_mapEntry]
    omega
  have hloop : loop (fun inset => UInt32.ofNat (offset + 4 + inset) <
        UInt32.ofNat (offset + 4) + UInt32.ofNat entries.length)
      (fun m inset => do
        let (key, inset) ← wrap "failed to read map key"
          (getPrefixedString (buf.drop (offset + 4)) inset)
        let (value, inset) ← wrap "failed to read map value"
          (getPrefixedString (buf.drop (offset + 4)) inset)
        pure (m.insert key value, inset))
      (buf.length + 1) (∅ : BTreeMap Bytes Bytes) 0 =
        .ok (m.toList.foldl (fun m e => m.insert e.1 e.2) ∅, entries.length) := by
    refine loop_of_rest mapEntry _ ?_ ?_ m.toList ?_ ∅ (buf.length + 1) (by omega) hinner
      (by rw [← hentries, Nat.zero_add])
    · -- an entry: its key and its value
      intro m e inset rest hrest
      have hinner := hrest.length
      rw [List.length_append, length_mapEntry, List.length_drop] at hinner
      rw [mapEntry, List.append_assoc] at hrest
      refine (bind_field (getPrefixedString_of_rest (by omega) hrest)).trans ?_
      refine (bind_field (getPrefixedString_of_rest (by omega) hrest.prefixedString)).trans ?_
      rw [length_mapEntry]
      simp only [Res.pure_eq, Res.ok.injEq, Prod.mk.injEq, true_and]
      omega
    · rw [hmore _ (Nat.le_refl _)]
      simp
    · intro e _ inset hle
      rw [length_mapEntry] at hle
      rw [hmore _ (by omega)]
      exact decide_eq_true (by omega)
  have hall : m.toList.foldl (fun (m : BTreeMap Bytes Bytes) e => m.insert e.1 e.2) ∅ = m :=
    BTreeMap.insertAll_of_perm (.refl _)
  rw [hall] at hloop
  refine (bind_field hmaplen).trans
    ((congrArg (· >>= fun r => pure (r.1, offset + 4 + r.2)) hloop).trans ?_)
  have hend : offset + 4 + entries.length = buf.length := by omega
  rw [Res.ok_bind, hend]
  rfl

theorem parseChannel_body {c : Channel} (h : c.body.length < 2 ^ 32) :
    parseChannel c.body = .ok c := by
  have hlen : c.body.length = 2 + 2 + (4 + c.topic.length) + (4 + c.messageEncoding.length) +
      (makePrefixedMap c.metadata).length := by
    simp [Channel.body]
    omega
  have h0 := Rest.start c.body
  have h1 := h0.u16
  have h2 := h1.u16
  have h3 := h2.prefixedString
  have h4 := h3.prefixedString
  refine (bind_field (getUint16_of_rest h0)).trans ((bind_field (getUint16_of_rest h1)).trans ?_)
  refine (bind_field (getPrefixedString_of_rest (by omega) h2)).trans ?_
  refine (bind_field (getPrefixedString_of_rest (by omega) h3)).trans ?_
  exact (bind_field (getPrefixedMap_of_rest h h4)).trans rfl

/-! ### Message indexes, and the ends of the sections -/

@[simp] theorem MessageIndexEntry.length_bytes (e : MessageIndexEntry) : e.bytes.length = 16 := by
  simp [MessageIndexEntry.bytes]

theorem parseMessageIndex_body {channelID : UInt16} {entries : List MessageIndexEntry}
    (h : (indexBody channelID entries).length < 2 ^ 32) :
    parseMessageIndex (indexBody channelID entries) =
      .ok ⟨channelID, entries, entries.length⟩ := by
  have hbytes : (entries.flatMap MessageIndexEntry.bytes).length = entries.length * 16 := by
    rw [List.length_flatMap]
    simp
  have hlen : (indexBody channelID entries).length = 6 + entries.length * 16 := by
    simp only [indexBody, List.length_append, length_u16, length_le, hbytes]
    omega
  have h0 := Rest.start (indexBody channelID entries)
  have h1 := h0.u16
  have h2 := h1.skip (length_le 4 _)
  rw [← List.append_nil (entries.flatMap _)] at h2
  have hcount : getUint32 (indexBody channelID entries) (0 + 2) =
      .ok (.ofNat (entries.length * 16), 6) := by
    unfold getUint32
    rw [getUint_of_rest h1, Nat.mod_eq_of_lt (by omega)]
    rfl
  have hmore : ∀ offset, offset ≤ 6 + entries.length * 16 →
      (decide (UInt32.ofNat offset < UInt32.ofNat 6 + UInt32.ofNat (entries.length * 16)) =
        decide (offset < 6 + entries.length * 16)) := by
    intro offset hle
    rw [decide_eq_decide, UInt32.lt_iff_toNat_lt, UInt32.toNat_add, UInt32.toNat_ofNat',
      UInt32.toNat_ofNat', UInt32.toNat_ofNat']
    omega
  have hloop : loop
      (fun offset => UInt32.ofNat offset < UInt32.ofNat 6 + UInt32.ofNat (entries.length * 16))
      (fun records offset => do
        let (timestamp, offset) ← wrap "failed to read message index entry stamp"
          (getUint64 (indexBody channelID entries) offset)
        let (value, offset) ← wrap "failed to read message index entry value"
          (getUint64 (indexBody channelID entries) offset)
        pure (records ++ [(⟨timestamp, value⟩ : MessageIndexEntry)], offset))
      ((indexBody channelID entries).length + 1) ([] : List MessageIndexEntry) 6 =
        .ok (entries.foldl (fun records e => records ++ [e]) [], 6 + entries.length * 16) := by
    refine loop_of_rest MessageIndexEntry.bytes _ ?_ ?_ entries ?_ []
      ((indexBody channelID entries).length + 1) (by omega) h2 (by rw [hbytes])
    · intro records e offset rest hrest
      rw [MessageIndexEntry.bytes, List.append_assoc] at hrest
      rw [MessageIndexEntry.length_bytes]
      exact (bind_field (getUint64_of_rest hrest)).trans (bind_field (getUint64_of_rest hrest.u64))
    · rw [hmore _ (Nat.le_refl _)]
      simp
    · intro e _ offset hle
      rw [MessageIndexEntry.length_bytes] at hle
      rw [hmore _ (by omega)]
      exact decide_eq_true (by omega)
  have hall : entries.foldl (fun records e => records ++ [e]) [] = entries := by
    rw [List.foldl_append_eq_append, ← List.flatMap_def, List.flatMap_singleton']
    rfl
  rw [hall] at hloop
  exact (bind_field (getUint16_of_rest h0)).trans ((bind_field hcount).trans
    (congrArg (· >>= fun r => pure (⟨channelID, r.1, r.1.length⟩ : MessageIndex)) hloop))

/-! ### Statistics -/

section
variable {channelIDs : List UInt16} {m : BTreeMap UInt16 UInt64}

theorem mem_channelEntries {e : UInt16 × UInt64} :
    e ∈ channelEntries channelIDs m ↔ e.1 ∈ channelIDs ∧ m[e.1]? = some e.2 := by
  obtain ⟨chanID, v⟩ := e
  simp only [channelEntries, List.mem_filterMap, Option.map_eq_some_iff, Prod.mk.injEq]
  constructor
  · rintro ⟨c, hc, w, hw, rfl, rfl⟩
    exact ⟨hc, hw⟩
  · rintro ⟨hc, hv⟩
    exact ⟨chanID, hc, v, hv, rfl, rfl⟩

theorem nodup_channelEntries (h : channelIDs.Nodup) : (channelEntries channelIDs m).Nodup := by
  refine List.Nodup.filterMap ?_ h
  intro a b e ha hb
  simp only [Option.mem_def, Option.map_eq_some_iff] at ha hb
  obtain ⟨v, -, rfl⟩ := ha
  obtain ⟨w, -, he⟩ := hb
  exact (Prod.mk.inj he).1.symm

theorem channelEntries_perm (h : channelIDs.Nodup) (hm : ∀ k v, m[k]? = some v → k ∈ channelIDs) :
    (channelEntries channelIDs m).Perm m.toList := by
  refine (List.perm_ext_iff_of_nodup (nodup_channelEntries h) (BTreeMap.nodup_toList m)).mpr ?_
  rintro ⟨k, v⟩
  rw [mem_channelEntries, BTreeMap.mem_toList]
  exact ⟨And.right, fun hv => ⟨hm k v hv, hv⟩⟩

theorem length_le_of_nodup (h : channelIDs.Nodup) : channelIDs.length ≤ 2 ^ 16 := by
  have hmap : (channelIDs.map UInt16.toNat).Nodup := h.map fun a b hab => UInt16.toNat_inj.mp hab
  have hsub : channelIDs.map UInt16.toNat ⊆ List.range (2 ^ 16) := by
    intro n hn
    obtain ⟨c, -, rfl⟩ := List.mem_map.mp hn
    exact List.mem_range.mpr c.toNat_lt
  have hle := (List.subperm_of_subset hmap hsub).length_le
  rwa [List.length_map, List.length_range] at hle

theorem length_channelEntries_le (channelIDs : List UInt16) (m : BTreeMap UInt16 UInt64) :
    (channelEntries channelIDs m).length ≤ channelIDs.length :=
  List.length_filterMap_le _ _

@[simp] theorem length_intEntry (e : UInt16 × UInt64) : (intEntry e).length = 10 := by
  simp [intEntry]

theorem length_flatMap_intEntry (l : List (UInt16 × UInt64)) :
    (l.flatMap intEntry).length = l.length * 10 := by
  induction l with
  | nil => rfl
  | cons e l ih =>
    rw [List.flatMap_cons, List.length_append, ih, length_intEntry, List.length_cons]
    omega

theorem getChannelEntries_of_rest {buf : Bytes} {offset : Nat} {rest : Bytes}
    (ctxKey ctxValue : String) (l : List (UInt16 × UInt64))
    (h : Rest buf offset (l.flatMap intEntry ++ rest)) :
    getChannelEntries ctxKey ctxValue buf offset (l.length * 10) =
      .ok (BTreeMap.insertAll ∅ l, offset + l.length * 10) := by
  have hlen := h.length
  rw [List.length_append, length_flatMap_intEntry] at hlen
  have hle := h.le
  refine loop_of_rest intEntry (fun (m : BTreeMap UInt16 UInt64) e => m.insert e.1 e.2) ?_
    (by simp) l ?_ ∅ (buf.length + 1) (by omega) h (by rw [length_flatMap_intEntry])
  · intro m e offset rest hrest
    unfold intEntry at hrest
    rw [List.append_assoc] at hrest
    rw [length_intEntry]
    exact (bind_field (getUint16_of_rest hrest)).trans (bind_field (getUint64_of_rest hrest.u16))
  · intro e _ o ho
    rw [length_intEntry] at ho
    exact decide_eq_true (by omega)

end

/-- **What is written of statistics reads back**, of the counts those of the channels of the writer. -/
theorem parseStatistics_written {channelIDs : List UInt16} (s : Statistics) (h : channelIDs.Nodup) :
    parseStatistics (s.body channelIDs) = .ok
      { s with
        channelMessageCounts :=
          BTreeMap.insertAll ∅ (channelEntries channelIDs s.channelMessageCounts) } := by
  have hcount : (channelEntries channelIDs s.channelMessageCounts).length * (2 + 8) < 2 ^ 32 := by
    have h1 := length_channelEntries_le channelIDs s.channelMessageCounts
    have h2 := length_le_of_nodup h
    omega
  have hlen : (s.body channelIDs).length = 46 +
      (channelEntries channelIDs s.channelMessageCounts).length * 10 := by
    simp [Statistics.body]
    omega
  have h0 := Rest.start (s.body channelIDs)
  have h1 := h0.u64
  have h2 := h1.u16
  have h3 := h2.u32
  have h4 := h3.u32
  have h5 := h4.u32
  have h6 := h5.u32
  have h7 := h6.u64
  have h8 := h7.u64
  have h9 := h8.skip (length_le 4 _)
  have hmap : getUint32 (s.body channelIDs) (0 + 8 + 2 + 4 + 4 + 4 + 4 + 8 + 8) =
      .ok (.ofNat ((channelEntries channelIDs s.channelMessageCounts).length * (2 + 8)), 46) := by
    unfold getUint32
    rw [getUint_of_rest h8, Nat.mod_eq_of_lt (by exact hcount)]
    rfl
  have htoNat : (UInt32.ofNat
      ((channelEntries channelIDs s.channelMessageCounts).length * (2 + 8))).toNat =
        (channelEntries channelIDs s.channelMessageCounts).length * 10 := by
    rw [UInt32.toNat_ofNat', Nat.mod_eq_of_lt hcount]
  have hentries := getChannelEntries_of_rest "failed to read message count channel ID"
    "failed to read channel message count" (channelEntries channelIDs s.channelMessageCounts)
    ((List.append_nil (List.flatMap intEntry _)).symm ▸ h9)
  have hsum : (0 + 8 + 2 + 4 + 4 + 4 + 4 + 8 + 8 + 4 : Nat) = 46 := rfl
  rw [hsum] at hentries
  unfold parseStatistics
  rw [if_neg (by rw [hlen]; unfold statisticsMinLength; omega)]
  refine (bind_field (getUint64_of_rest h0)).trans ((bind_field (getUint16_of_rest h1)).trans ?_)
  refine (bind_field (getUint32_of_rest h2)).trans ((bind_field (getUint32_of_rest h3)).trans ?_)
  refine (bind_field (getUint32_of_rest h4)).trans ((bind_field (getUint32_of_rest h5)).trans ?_)
  refine (bind_field (getUint64_of_rest h6)).trans ((bind_field (getUint64_of_rest h7)).trans ?_)
  refine (bind_field hmap).trans ?_
  simp only
  rw [htoNat, if_neg (by omega), hentries]
  rfl

/-- **Round trip of the statistics** of a writer, whose counts are those of its channels. -/
theorem parseStatistics_body {channelIDs : List UInt16} {s : Statistics} (h : channelIDs.Nodup)
    (hs : ∀ k v, s.channelMessageCounts[k]? = some v → k ∈ channelIDs) :
    parseStatistics (s.body channelIDs) = .ok s := by
  rw [parseStatistics_written s h, BTreeMap.insertAll_of_perm (channelEntries_perm h hs)]

/-- **Round trip of the records of the data section**: what is written of a record is parsed back. -/
theorem bodies_parsed :
    (∀ h : Header, h.body.length < 2 ^ 32 → parseHeader h.body = .ok h) ∧
    (∀ s : Schema, s.body.length < 2 ^ 32 → parseSchema s.body = .ok s) ∧
    (∀ c : Channel, c.body.length < 2 ^ 32 → parseChannel c.body = .ok c) ∧
    (∀ m : Message, parseMessage m.body = .ok m) ∧
    ∀ id entries, (indexBody id entries).length < 2 ^ 32 →
      parseMessageIndex (indexBody id entries) = .ok ⟨id, entries, entries.length⟩ :=
  ⟨fun _ => parseHeader_body, fun _ => parseSchema_body, fun _ => parseChannel_body,
    parseMessage_body, fun _ _ => parseMessageIndex_body⟩

end Go
end Mcap

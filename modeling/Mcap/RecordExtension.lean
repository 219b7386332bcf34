import Mcap.RecordCodec

/-! # Records that are extended

A record may be extended by fields at the end of its body, and a reader that does not know
them ignores them.  `parse_record` does so: a record that is parsed is parsed to the same
value when bytes are added to its body (`parse_extended`).  This is a matter of how far each
field is read: the readers of the records are `Local`, they do not look at what they leave.

The record of a message is the exception.  Its data goes to the end of the body.
-/
namespace Mcap

/-! ## The readers of the records -/

theorem local_u8 : Local readU8 1 := (Local.le BinError.io 1).map _
theorem local_u16 : Local readU16 2 := (Local.le BinError.io 2).map _
theorem local_u32 : Local readU32 4 := (Local.le BinError.io 4).map _
theorem local_u64 : Local readU64 8 := (Local.le BinError.io 8).map _

theorem local_string : Local readString 4 := by
  refine (Local.le BinError.io 4).bind (m := 0) fun len => ?_
  refine ((Local.exact BinError.io len).bind (m := 0) fun bs => ?_).mono (Nat.zero_le _)
  -- the position is asked for, but only for the error
  cases String.fromUTF8? ⟨bs.toArray⟩ with
  | some s => exact Local.position fun _ => Local.pure s
  | none => exact Local.position (f := fun pos => throw (BinError.fromUtf8 (pos - len))) fun pos =>
      Local.throw _ 0

theorem local_map {K V : Type} [Ord K] [Std.TransOrd K] {entry : Read BinError (K × V)}
    (h : Local entry 1) : Local (readMap entry) 4 := by
  have hstep : ∀ pos m, Local (insertEntry entry pos m) 1 := by
    intro pos m
    refine h.bind (m := 0) fun e => ?_
    split
    · exact Local.throw _ 0
    · exact Local.pure _
  exact Local.counted hstep ∅

theorem local_vec {α : Type} {elem : Read BinError α} (h : Local elem 1) :
    Local (readVec elem) 4 := by
  have hstep : ∀ (_ : Nat) xs, Local (do let x ← elem; pure (xs ++ [x])) 1 :=
    fun _ xs => h.bind (m := 0) fun x => Local.pure (xs ++ [x])
  exact Local.counted hstep []

theorem local_stringMap : Local readStringMap 4 := by
  refine local_map (Local.mono (n := 8) ?_ (by omega))
  exact local_string.bind fun _ => local_string.bind fun _ => Local.pure _

theorem local_intMap : Local readIntMap 4 := by
  refine local_map (Local.mono (n := 10) ?_ (by omega))
  exact local_u16.bind fun _ => local_u64.bind fun _ => Local.pure _

theorem Header.local_read : Local Header.read 8 :=
  local_string.bind fun _ => local_string.bind fun _ => Local.pure _

theorem Footer.local_read : Local Footer.read 20 :=
  local_u64.bind fun _ => local_u64.bind fun _ => local_u32.bind fun _ => Local.pure _

theorem SchemaHeader.local_read : Local SchemaHeader.read 10 :=
  local_u16.bind fun _ => local_string.bind fun _ => local_string.bind fun _ => Local.pure _

theorem ChannelRecord.local_read : Local ChannelRecord.read 16 :=
  local_u16.bind fun _ => local_u16.bind fun _ => local_string.bind fun _ =>
    local_string.bind fun _ => local_stringMap.bind fun _ => Local.pure _

theorem ChunkHeader.local_read : Local ChunkHeader.read 40 :=
  local_u64.bind fun _ => local_u64.bind fun _ => local_u64.bind fun _ => local_u32.bind fun _ =>
    local_string.bind fun _ => local_u64.bind fun _ => Local.pure _

theorem MessageIndexEntry.local_read : Local MessageIndexEntry.read 16 :=
  local_u64.bind fun _ => local_u64.bind fun _ => Local.pure _

theorem MessageIndex.local_read : Local MessageIndex.read 6 :=
  local_u16.bind fun _ =>
    (local_vec (MessageIndexEntry.local_read.mono (by omega))).bind fun _ => Local.pure _

theorem ChunkIndex.local_read : Local ChunkIndex.read 64 :=
  local_u64.bind fun _ => local_u64.bind fun _ => local_u64.bind fun _ => local_u64.bind fun _ =>
    local_intMap.bind fun _ => local_u64.bind fun _ => local_string.bind fun _ =>
      local_u64.bind fun _ => local_u64.bind fun _ => Local.pure _

theorem AttachmentHeader.local_read : Local AttachmentHeader.read 24 :=
  local_u64.bind fun _ => local_u64.bind fun _ => local_string.bind fun _ =>
    local_string.bind fun _ => Local.pure _

theorem AttachmentIndex.local_read : Local AttachmentIndex.read 48 :=
  local_u64.bind fun _ => local_u64.bind fun _ => local_u64.bind fun _ => local_u64.bind fun _ =>
    local_u64.bind fun _ => local_string.bind fun _ => local_string.bind fun _ => Local.pure _

theorem Statistics.local_read : Local Statistics.read 46 :=
  local_u64.bind fun _ => local_u16.bind fun _ => local_u32.bind fun _ => local_u32.bind fun _ =>
    local_u32.bind fun _ => local_u32.bind fun _ => local_u64.bind fun _ => local_u64.bind fun _ =>
      local_intMap.bind fun _ => Local.pure _

theorem Metadata.local_read : Local Metadata.read 8 :=
  local_string.bind fun _ => local_stringMap.bind fun _ => Local.pure _

theorem MetadataIndex.local_read : Local MetadataIndex.read 20 :=
  local_u64.bind fun _ => local_u64.bind fun _ => local_string.bind fun _ => Local.pure _

theorem SummaryOffset.local_read : Local SummaryOffset.read 17 :=
  local_u8.bind fun _ => local_u64.bind fun _ => local_u64.bind fun _ => Local.pure _

theorem DataEnd.local_read : Local DataEnd.read 4 := local_u32.bind fun _ => Local.pure _

/-! ## `parse_record` on more bytes -/

theorem Local.readLeFrom {α : Type} {p : Read BinError α} {n : Nat} (h : Local p n)
    {body : Bytes} {a : α} {c : Cursor} (hread : Mcap.readLeFrom p body = .ok (a, c)) (extra : Bytes) :
    Mcap.readLeFrom p (body ++ extra) = .ok (a, ⟨c.rest ++ extra, c.pos⟩) := by
  have hmore : p (Cursor.new (body ++ extra)) = .ok (a, ⟨c.rest ++ extra, c.pos⟩) :=
    (h _ _ _ (readLeFrom_eq_ok hread)).2.2 extra
  rw [Mcap.readLeFrom, hmore]

theorem Local.length_rest {α : Type} {p : Read BinError α} {n : Nat} (h : Local p n) {body : Bytes}
    {a : α} {c : Cursor} (hread : Mcap.readLeFrom p body = .ok (a, c)) :
    c.rest.length ≤ body.length := by
  have hlen := (h _ _ _ (readLeFrom_eq_ok hread)).2.1
  simp only [Cursor.new] at hlen
  omega

theorem readInt_append {w n : Nat} {bytes rest : Bytes} (h : readInt w bytes = .ok (n, rest))
    (extra : Bytes) : readInt w (bytes ++ extra) = .ok (n, rest ++ extra) := by
  unfold readInt at h ⊢
  by_cases hlen : bytes.length < w
  · rw [if_pos hlen] at h
    cases h
  · rw [if_neg hlen] at h
    cases h
    rw [if_neg (by rw [List.length_append]; omega), List.take_append_of_le_length (by omega),
      List.drop_append_of_le_length (by omega)]

section
variable {body extra : Bytes} {r : Record}

theorem Local.parseBody {α : Type} {p : Read BinError α} {n : Nat} (h : Local p n)
    {k : α → Record} (hp : parseBody p k body = .ok r) (extra : Bytes) :
    parseBody p k (body ++ extra) = .ok r := by
  unfold Mcap.parseBody at hp ⊢
  rcases hread : Mcap.readLeFrom p body with e | ⟨a, c⟩
  · rw [hread] at hp
    cases hp
  · rw [hread] at hp
    rw [h.readLeFrom hread extra]
    exact hp

theorem parseSchema_append (hp : parseSchema body = .ok r)
    (hlen : (body ++ extra).length < 2 ^ 32) : parseSchema (body ++ extra) = .ok r := by
  unfold parseSchema at hp ⊢
  rcases hread : readLeFrom SchemaHeader.read body with e | ⟨header, c⟩
  · rw [hread] at hp
    cases hp
  rw [hread] at hp
  rw [SchemaHeader.local_read.readLeFrom hread extra]
  simp only at hp ⊢
  rcases hint : readInt 4 c.rest with e | ⟨dataLen, data⟩
  · rw [hint] at hp
    cases hp
  rw [hint] at hp
  rw [readInt_append hint extra]
  simp only at hp ⊢
  -- the data is no longer than the body, so that its length is not cut
  have hrest : (data ++ extra).length ≤ (body ++ extra).length := by
    have hc := SchemaHeader.local_read.length_rest hread
    have hdata : data.length ≤ c.rest.length := by
      unfold readInt at hint
      split at hint
      · cases hint
      · cases hint
        rw [List.length_drop]
        exact Nat.sub_le _ _
    simp only [List.length_append]
    omega
  rw [List.length_append] at hrest
  rw [Nat.mod_eq_of_lt (show data.length < 2 ^ 32 by omega)] at hp
  rw [List.length_append, Nat.mod_eq_of_lt (show data.length + extra.length < 2 ^ 32 by omega)]
  split at hp
  · cases hp
  · rw [if_neg (by omega), List.take_append_of_le_length (by omega)]
    exact hp

theorem parseChunk_append (hp : parseChunk body = .ok r) (extra : Bytes) :
    parseChunk (body ++ extra) = .ok r := by
  unfold parseChunk at hp ⊢
  rcases hread : readLeFrom ChunkHeader.read body with e | ⟨header, c⟩
  · rw [hread] at hp
    cases hp
  rw [hread] at hp
  rw [ChunkHeader.local_read.readLeFrom hread extra]
  simp only at hp ⊢
  split at hp
  · cases hp
  · rw [if_neg (by rw [List.length_append]; omega), List.take_append_of_le_length (by omega)]
    exact hp

theorem take_drop_take {α : Type} {xs : List α} {n m k : Nat} (h : n + m ≤ k) :
    ((xs.take k).drop n).take m = (xs.drop n).take m := by
  rw [List.drop_take, List.take_take, Nat.min_eq_left (by omega)]

theorem parseAttachment_append (hp : parseAttachment body = .ok r) (extra : Bytes) :
    parseAttachment (body ++ extra) = .ok r := by
  unfold parseAttachment at hp ⊢
  rcases hread : readLeFrom AttachmentHeader.read body with e | ⟨header, c⟩
  · rw [hread] at hp
    cases hp
  rw [hread] at hp
  rw [AttachmentHeader.local_read.readLeFrom hread extra]
  simp only at hp ⊢
  rcases hint : readInt 8 c.rest with e | ⟨dataLen, rest⟩
  · rw [hint] at hp
    cases hp
  rw [hint] at hp
  rw [readInt_append hint extra]
  simp only at hp ⊢
  have hheader : (body ++ extra).length - (rest ++ extra).length = body.length - rest.length := by
    rw [List.length_append, List.length_append]
    omega
  rw [hheader]
  generalize body.length - rest.length = headerLen at hp ⊢
  split at hp
  · cases hp
  rename_i hroom
  rw [if_neg (by rw [List.length_append]; omega)]
  split at hp
  · cases hp
  rename_i hfits
  have hend : headerLen + dataLen ≤ body.length - 4 := by
    simp only [List.length_drop, List.length_take] at hfits
    omega
  rw [if_neg (by simp only [List.length_drop, List.length_take, List.length_append]; omega)]
  have hsame : (((body ++ extra).take ((body ++ extra).length - 4)).drop headerLen).take dataLen =
      (body.drop headerLen).take dataLen := by
    rw [take_drop_take (by rw [List.length_append]; omega),
      List.drop_append_of_le_length (by omega),
      List.take_append_of_le_length (by rw [List.length_drop]; omega)]
  have hdata : ((body.drop headerLen).take dataLen).length = dataLen := by
    rw [List.length_take, List.length_drop]
    omega
  rw [take_drop_take hend] at hp
  simp only [hsame, hdata] at hp ⊢
  rw [List.drop_append_of_le_length (by omega), List.take_append_of_le_length (by omega)]
  rcases hcrc : readLeFrom readU32 (body.drop (headerLen + dataLen)) with e | ⟨crc, c'⟩
  · rw [hcrc] at hp
    cases hp
  · rw [hcrc] at hp
    rw [local_u32.readLeFrom hcrc extra]
    exact hp

theorem known_opcode {opcode : UInt8} (h : op.HEADER ≤ opcode ∧ opcode ≤ op.DATA_END) :
    opcode ∈ [op.HEADER, op.FOOTER, op.SCHEMA, op.CHANNEL, op.MESSAGE, op.CHUNK, op.MESSAGE_INDEX,
      op.CHUNK_INDEX, op.ATTACHMENT, op.ATTACHMENT_INDEX, op.STATISTICS, op.METADATA,
      op.METADATA_INDEX, op.SUMMARY_OFFSET, op.DATA_END] := by
  have hall : ∀ n < 16, 1 ≤ n → UInt8.ofNat n ∈ [op.HEADER, op.FOOTER, op.SCHEMA, op.CHANNEL,
      op.MESSAGE, op.CHUNK, op.MESSAGE_INDEX, op.CHUNK_INDEX, op.ATTACHMENT, op.ATTACHMENT_INDEX,
      op.STATISTICS, op.METADATA, op.METADATA_INDEX, op.SUMMARY_OFFSET, op.DATA_END] := by decide
  have hhi : opcode.toNat ≤ 15 := h.2
  have hopcode := hall opcode.toNat (by omega) h.1
  rwa [UInt8.ofNat_toNat] at hopcode

theorem parse_opcode {opcode : UInt8} (hp : parseRecord opcode body = .ok r) : r.opcode = opcode := by
  have hbody : ∀ {α : Type} {p : Read BinError α} {k : α → Record}, (∀ a, (k a).opcode = opcode) →
      parseBody p k body = .ok r → r.opcode = opcode := by
    intro α p k hk h
    unfold parseBody at h
    split at h
    · cases h
      exact hk _
    · cases h
  by_cases hknown : op.HEADER ≤ opcode ∧ opcode ≤ op.DATA_END
  · have hmem := known_opcode hknown
    simp only [List.mem_cons, List.not_mem_nil, or_false] at hmem
    rcases hmem with rfl | rfl | rfl | rfl | rfl | rfl | rfl | rfl | rfl | rfl | rfl | rfl | rfl |
      rfl | rfl
    · exact hbody (k := .header) (fun _ => rfl) hp
    · exact hbody (k := .footer) (fun _ => rfl) hp
    · have h : parseSchema body = .ok r := hp
      unfold parseSchema at h
      repeat' split at h
      all_goals cases h
      rfl
    · exact hbody (k := .channel) (fun _ => rfl) hp
    · have h : parseMessage body = .ok r := hp
      unfold parseMessage at h
      repeat' split at h
      all_goals cases h
      rfl
    · have h : parseChunk body = .ok r := hp
      unfold parseChunk at h
      repeat' split at h
      all_goals cases h
      rfl
    · exact hbody (k := .messageIndex) (fun _ => rfl) hp
    · exact hbody (k := .chunkIndex) (fun _ => rfl) hp
    · have h : parseAttachment body = .ok r := hp
      unfold parseAttachment at h
      simp only at h
      repeat' split at h
      all_goals cases h
      rfl
    · exact hbody (k := .attachmentIndex) (fun _ => rfl) hp
    · exact hbody (k := .statistics) (fun _ => rfl) hp
    · exact hbody (k := .metadata) (fun _ => rfl) hp
    · exact hbody (k := .metadataIndex) (fun _ => rfl) hp
    · exact hbody (k := .summaryOffset) (fun _ => rfl) hp
    · exact hbody (k := .dataEnd) (fun _ => rfl) hp
  · have hne : ∀ o : UInt8, op.HEADER ≤ o ∧ o ≤ op.DATA_END → opcode ≠ o := by
      rintro o ho rfl
      exact hknown ho
    simp only [parseRecord, hne op.HEADER (by decide), hne op.FOOTER (by decide),
      hne op.SCHEMA (by decide), hne op.CHANNEL (by decide), hne op.MESSAGE (by decide),
      hne op.CHUNK (by decide), hne op.MESSAGE_INDEX (by decide), hne op.CHUNK_INDEX (by decide),
      hne op.ATTACHMENT (by decide), hne op.ATTACHMENT_INDEX (by decide),
      hne op.STATISTICS (by decide), hne op.METADATA (by decide),
      hne op.METADATA_INDEX (by decide), hne op.SUMMARY_OFFSET (by decide),
      hne op.DATA_END (by decide), if_false] at hp
    cases hp
    rfl

/-- **An extended record is parsed to the same value**, whatever its kind, unless it is a
message or unknown. -/
theorem parse_append {opcode : UInt8} (hknown : op.HEADER ≤ opcode ∧ opcode ≤ op.DATA_END)
    (hmessage : opcode ≠ op.MESSAGE) (hp : parseRecord opcode body = .ok r)
    (hlen : (body ++ extra).length < 2 ^ 32) : parseRecord opcode (body ++ extra) = .ok r := by
  have hmem := known_opcode hknown
  simp only [List.mem_cons, List.not_mem_nil, or_false] at hmem
  rcases hmem with rfl | rfl | rfl | rfl | rfl | rfl | rfl | rfl | rfl | rfl | rfl | rfl | rfl |
    rfl | rfl
  · exact Header.local_read.parseBody (k := .header) hp extra
  · exact Footer.local_read.parseBody (k := .footer) hp extra
  · exact parseSchema_append hp hlen
  · exact ChannelRecord.local_read.parseBody (k := .channel) hp extra
  · exact absurd rfl hmessage
  · exact parseChunk_append hp extra
  · exact MessageIndex.local_read.parseBody (k := .messageIndex) hp extra
  · exact ChunkIndex.local_read.parseBody (k := .chunkIndex) hp extra
  · exact parseAttachment_append hp extra
  · exact AttachmentIndex.local_read.parseBody (k := .attachmentIndex) hp extra
  · exact Statistics.local_read.parseBody (k := .statistics) hp extra
  · exact Metadata.local_read.parseBody (k := .metadata) hp extra
  · exact MetadataIndex.local_read.parseBody (k := .metadataIndex) hp extra
  · exact SummaryOffset.local_read.parseBody (k := .summaryOffset) hp extra
  · exact DataEnd.local_read.parseBody (k := .dataEnd) hp extra

end

end Mcap

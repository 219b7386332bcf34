import Mcap.RecordExtension

/-! # The slices of `parse_record`

`parse_record` takes slices of a body at positions that come from lengths in the same body, and a slice
that is out of range panics.  Here each of them is checked (`sliceOf`), at the position of the
cursor, and what was a part of the body in `parseRecord` may panic.

The slices of a schema, a message and a chunk are in range, whatever the body, since a cursor stays in
its input (`cursor_within`); `parse_record_returns_iff` says that the slice of an attachment is not if
the body ends before the checksum does.
-/
namespace Mcap

/-- `&bytes[start..stop]`. -/
def sliceOf (bytes : Bytes) (start stop : Nat) : Res McapError Bytes :=
  if start ≤ stop ∧ stop ≤ bytes.length then .ok ((bytes.take stop).drop start) else .panic

/-- Subtraction of unsigned numbers. -/
def checkedSub (a b : Nat) : Res McapError Nat := if b ≤ a then .ok (a - b) else .panic

/-! ## The branches -/

/-- The schema branch of `parse_record`, with its slices. -/
def parseSchemaChecked (body : Bytes) : Res McapError Record :=
  match readLeFrom SchemaHeader.read body with
  | .error e => .err e
  | .ok (header, c) =>
      match readInt 4 c.rest with
      | .error e => .err e
      | .ok (dataLen, _) =>
          (sliceOf body (c.pos + 4) body.length).bind fun data =>
            if dataLen > data.length % 2 ^ 32 then
              .err (.badSchemaLength dataLen (data.length % 2 ^ 32))
            else (sliceOf data 0 dataLen).bind fun data => .ok (.schema header data)

/-- The message branch of `parse_record`, with its slice. -/
def parseMessageChecked (body : Bytes) : Res McapError Record :=
  match readLeFrom MessageHeader.read body with
  | .error e => .err e
  | .ok (header, c) =>
      (sliceOf body c.pos body.length).bind fun data => .ok (.message header data)

/-- The chunk branch of `parse_record`, with its slices. -/
def parseChunkChecked (body : Bytes) : Res McapError Record :=
  match readLeFrom ChunkHeader.read body with
  | .error e => .err e
  | .ok (header, c) =>
      (sliceOf body c.pos body.length).bind fun data =>
        if header.compressedSize.toNat > data.length then
          .err (.badChunkLength header.compressedSize.toNat data.length)
        else (sliceOf data 0 header.compressedSize.toNat).bind fun data => .ok (.chunk header data)

/-- The attachment branch of `parse_record`, with its slices and the subtraction. -/
def parseAttachmentChecked (body : Bytes) : Res McapError Record :=
  match readLeFrom AttachmentHeader.read body with
  | .error e => .err e
  | .ok (header, c) =>
      match readInt 8 c.rest with
      | .error e => .err e
      | .ok (dataLen, _) =>
          let headerLen := c.pos + 8
          (checkedSub body.length 4).bind fun stop => (sliceOf body headerLen stop).bind fun data =>
            if dataLen > data.length then .err (.badAttachmentLength dataLen data.length)
            else (sliceOf data 0 dataLen).bind fun data =>
              (sliceOf body (headerLen + data.length) body.length).bind fun rest =>
                match readLeFrom readU32 rest with
                | .error e => .err e
                | .ok (crc, _) =>
                    if crc ≠ 0 then
                      (sliceOf body 0 (headerLen + data.length)).bind fun covered =>
                        let calculated := crc32 covered
                        if crc ≠ calculated then .err (.badAttachmentCrc crc calculated)
                        else .ok (.attachment header data crc)
                    else .ok (.attachment header data crc)

/-- `parse_record`, with its slices. -/
def parseRecordChecked (opcode : UInt8) (body : Bytes) : Res McapError Record :=
  if opcode = op.HEADER then parseBody Header.read .header body
  else if opcode = op.FOOTER then parseBody Footer.read .footer body
  else if opcode = op.SCHEMA then parseSchemaChecked body
  else if opcode = op.CHANNEL then parseBody ChannelRecord.read .channel body
  else if opcode = op.MESSAGE then parseMessageChecked body
  else if opcode = op.CHUNK then parseChunkChecked body
  else if opcode = op.MESSAGE_INDEX then parseBody MessageIndex.read .messageIndex body
  else if opcode = op.CHUNK_INDEX then parseBody ChunkIndex.read .chunkIndex body
  else if opcode = op.ATTACHMENT then parseAttachmentChecked body
  else if opcode = op.ATTACHMENT_INDEX then parseBody AttachmentIndex.read .attachmentIndex body
  else if opcode = op.STATISTICS then parseBody Statistics.read .statistics body
  else if opcode = op.METADATA then parseBody Metadata.read .metadata body
  else if opcode = op.METADATA_INDEX then parseBody MetadataIndex.read .metadataIndex body
  else if opcode = op.SUMMARY_OFFSET then parseBody SummaryOffset.read .summaryOffset body
  else if opcode = op.DATA_END then parseBody DataEnd.read .dataEnd body
  else .ok (.unknown opcode body)

/-! ## Slices in range -/

section
variable {α : Type} {p : Read BinError α} {n : Nat} {body : Bytes} {a : α} {c : Cursor}

theorem cursor_within (hlocal : Local p n) (h : readLeFrom p body = .ok (a, c)) :
    c.pos + c.rest.length = body.length := by
  obtain ⟨-, hlength, -⟩ := hlocal _ _ _ (readLeFrom_eq_ok h)
  exact hlength.trans (Nat.zero_add _)

theorem readInt_eq_ok {w value : Nat} {bytes rest : Bytes} (h : readInt w bytes = .ok (value, rest)) :
    w ≤ bytes.length ∧ rest = bytes.drop w := by
  unfold readInt at h
  split at h
  · cases h
  · cases h
    exact ⟨by omega, rfl⟩

theorem sliceOf_eq {bytes : Bytes} {start stop : Nat} (h : start ≤ stop) (h' : stop ≤ bytes.length) :
    sliceOf bytes start stop = .ok ((bytes.take stop).drop start) := if_pos ⟨h, h'⟩

theorem sliceOf_drop {bytes : Bytes} {start : Nat} (h : start ≤ bytes.length) :
    sliceOf bytes start bytes.length = .ok (bytes.drop start) := by
  rw [sliceOf_eq h (Nat.le_refl _), List.take_length]

theorem sliceOf_take {bytes : Bytes} {stop : Nat} (h : stop ≤ bytes.length) :
    sliceOf bytes 0 stop = .ok (bytes.take stop) := by
  rw [sliceOf_eq (Nat.zero_le _) h, List.drop_zero]

theorem bind_ne_panic {β : Type} {x : Res McapError β} {b : β} {f : β → Res McapError Record}
    (hx : x = .ok b) (h : f b ≠ .panic) : x.bind f ≠ .panic := by
  rw [hx]
  exact h

theorem ite_ne_panic {P : Prop} [Decidable P] {x y : Res McapError Record} (hx : P → x ≠ .panic)
    (hy : y ≠ .panic) : (if P then x else y) ≠ .panic := by
  by_cases h : P
  · rw [if_pos h]
    exact hx h
  · rw [if_neg h]
    exact hy

theorem parseSchemaChecked_returns (body : Bytes) : parseSchemaChecked body ≠ .panic := by
  unfold parseSchemaChecked
  rcases hheader : readLeFrom SchemaHeader.read body with e | ⟨header, c⟩
  · exact fun h => by cases h
  · have hwithin := cursor_within SchemaHeader.local_read hheader
    dsimp only
    rcases hlen : readInt 4 c.rest with e | ⟨dataLen, rest⟩
    · exact fun h => by cases h
    · obtain ⟨hle, -⟩ := readInt_eq_ok hlen
      refine bind_ne_panic (sliceOf_drop (by omega)) ?_
      split
      · exact fun h => by cases h
      · rename_i hlong
        have hmod := Nat.mod_le (body.drop (c.pos + 4)).length (2 ^ 32)
        exact bind_ne_panic (sliceOf_take (by omega)) fun h => by cases h

theorem parseMessageChecked_returns (body : Bytes) : parseMessageChecked body ≠ .panic := by
  unfold parseMessageChecked
  rcases hheader : readLeFrom MessageHeader.read body with e | ⟨header, c⟩
  · exact fun h => by cases h
  · have hlocal : Local MessageHeader.read 22 :=
      local_u16.bind fun _ => local_u32.bind fun _ => local_u64.bind fun _ => local_u64.bind fun _ =>
        Local.pure _
    have hwithin := cursor_within hlocal hheader
    exact bind_ne_panic (sliceOf_drop (by omega)) fun h => by cases h

theorem parseChunkChecked_returns (body : Bytes) : parseChunkChecked body ≠ .panic := by
  unfold parseChunkChecked
  rcases hheader : readLeFrom ChunkHeader.read body with e | ⟨header, c⟩
  · exact fun h => by cases h
  · have hwithin := cursor_within ChunkHeader.local_read hheader
    refine bind_ne_panic (sliceOf_drop (by omega)) ?_
    split
    · exact fun h => by cases h
    · exact bind_ne_panic (sliceOf_take (by omega)) fun h => by cases h

theorem parseBody_returns {k : α → Record} : parseBody p k body ≠ .panic := by
  unfold parseBody
  rcases readLeFrom p body with e | ⟨a, c⟩ <;> exact fun h => by cases h

end

/-! ## Attachments -/

/-- **A body that ends before the checksum of its attachment does**: fewer than four bytes are behind
the length of the data. -/
def EndsBeforeCrc (body : Bytes) : Prop :=
  ∃ header c dataLen rest, readLeFrom AttachmentHeader.read body = .ok (header, c) ∧
    readInt 8 c.rest = .ok (dataLen, rest) ∧ rest.length < 4

theorem parseAttachmentChecked_panics_iff (body : Bytes) :
    parseAttachmentChecked body = .panic ↔ EndsBeforeCrc body := by
  unfold parseAttachmentChecked EndsBeforeCrc
  rcases hheader : readLeFrom AttachmentHeader.read body with e | ⟨header, c⟩
  · simp
  · have hwithin := cursor_within AttachmentHeader.local_read hheader
    dsimp only
    rcases hlen : readInt 8 c.rest with e | ⟨dataLen, rest⟩
    · simp [hlen]
    · obtain ⟨hle, rfl⟩ := readInt_eq_ok hlen
      have hrest : (c.rest.drop 8).length = c.rest.length - 8 := List.length_drop
      have hiff : (∃ header' c' dataLen' rest', (.ok (header, c) : Except McapError _) = .ok (header', c') ∧
          readInt 8 c'.rest = .ok (dataLen', rest') ∧ rest'.length < 4) ↔
            (c.rest.drop 8).length < 4 := by
        constructor
        · rintro ⟨_, _, _, _, heq, hint, hlt⟩
          cases heq
          rw [hlen] at hint
          cases hint
          exact hlt
        · exact fun hlt => ⟨header, c, dataLen, _, rfl, hlen, hlt⟩
      rw [hiff]
      have hsub : checkedSub body.length 4 = .ok (body.length - 4) := if_pos (by omega)
      rw [hsub]
      show (sliceOf body (c.pos + 8) (body.length - 4)).bind _ = .panic ↔ _
      by_cases hshort : (c.rest.drop 8).length < 4
      · -- the slice of the data ends before it starts
        have hslice : sliceOf body (c.pos + 8) (body.length - 4) = .panic := if_neg (by omega)
        rw [hslice]
        exact iff_of_true rfl hshort
      · refine iff_of_false (bind_ne_panic (sliceOf_eq (by omega) (by omega)) ?_) hshort
        have hdata : ((body.take (body.length - 4)).drop (c.pos + 8)).length =
            body.length - 4 - (c.pos + 8) := by
          rw [List.length_drop, List.length_take]
          omega
        generalize (body.take (body.length - 4)).drop (c.pos + 8) = data at hdata ⊢
        split
        · exact fun h => by cases h
        · rename_i hlong
          refine bind_ne_panic (sliceOf_take (by omega)) ?_
          have htake : (data.take dataLen).length = dataLen := by
            rw [List.length_take]
            omega
          refine bind_ne_panic (sliceOf_drop (by rw [htake]; omega)) ?_
          rcases readLeFrom readU32 _ with e | ⟨crc, _⟩
          · exact fun h => by cases h
          · dsimp only
            split
            · refine bind_ne_panic (sliceOf_take (by rw [htake]; omega)) ?_
              split <;> exact fun h => by cases h
            · exact fun h => by cases h

theorem parseAttachment_panics_iff (body : Bytes) : parseAttachment body = .panic ↔ EndsBeforeCrc body := by
  unfold parseAttachment EndsBeforeCrc
  rcases hheader : readLeFrom AttachmentHeader.read body with e | ⟨header, c⟩
  · simp
  · have hwithin := cursor_within AttachmentHeader.local_read hheader
    dsimp only
    rcases hlen : readInt 8 c.rest with e | ⟨dataLen, rest⟩
    · simp [hlen]
    · obtain ⟨hle, rfl⟩ := readInt_eq_ok hlen
      have hrest : (c.rest.drop 8).length = c.rest.length - 8 := List.length_drop
      dsimp only
      by_cases hshort : (c.rest.drop 8).length < 4
      · rw [if_pos (by omega)]
        exact iff_of_true rfl ⟨header, c, dataLen, _, rfl, hlen, hshort⟩
      · rw [if_neg (by omega)]
        refine iff_of_false ?_ ?_
        · split
          · exact fun h => by cases h
          · split
            · exact fun h => by cases h
            · split <;> exact fun h => by cases h
        · rintro ⟨_, _, _, _, heq, hint, hlt⟩
          cases heq
          rw [hlen] at hint
          cases hint
          exact hshort hlt

theorem parseSchema_ne_panic (body : Bytes) : parseSchema body ≠ .panic := by
  unfold parseSchema
  split
  · exact fun h => by cases h
  · split
    · exact fun h => by cases h
    · split <;> exact fun h => by cases h

theorem parseMessage_ne_panic (body : Bytes) : parseMessage body ≠ .panic := by
  unfold parseMessage
  split <;> exact fun h => by cases h

theorem parseChunk_ne_panic (body : Bytes) : parseChunk body ≠ .panic := by
  unfold parseChunk
  split
  · exact fun h => by cases h
  · split <;> exact fun h => by cases h

theorem parseRecord_panics_iff (opcode : UInt8) (body : Bytes) :
    parseRecord opcode body = .panic ↔ opcode = op.ATTACHMENT ∧ EndsBeforeCrc body := by
  by_cases hattachment : opcode = op.ATTACHMENT
  · subst hattachment
    rw [show parseRecord op.ATTACHMENT body = parseAttachment body from rfl, parseAttachment_panics_iff]
    exact ⟨fun h => ⟨rfl, h⟩, And.right⟩
  · refine iff_of_false ?_ fun h => hattachment h.1
    unfold parseRecord
    refine ite_ne_panic (fun _ => parseBody_returns) (ite_ne_panic (fun _ => parseBody_returns)
      (ite_ne_panic (fun _ => parseSchema_ne_panic body)
        (ite_ne_panic (fun _ => parseBody_returns)
          (ite_ne_panic (fun _ => parseMessage_ne_panic body)
            (ite_ne_panic (fun _ => parseChunk_ne_panic body) ?_)))))
    refine ite_ne_panic (fun _ => parseBody_returns) (ite_ne_panic (fun _ => parseBody_returns)
      (ite_ne_panic (fun h => absurd h hattachment) ?_))
    exact ite_ne_panic (fun _ => parseBody_returns) (ite_ne_panic (fun _ => parseBody_returns)
      (ite_ne_panic (fun _ => parseBody_returns) (ite_ne_panic (fun _ => parseBody_returns)
        (ite_ne_panic (fun _ => parseBody_returns) (ite_ne_panic (fun _ => parseBody_returns)
          fun h => by cases h)))))

/-- **`parse_record` returns**, a record or an error, on every body but that of an attachment that ends
before its checksum does. -/
theorem parse_record_returns_iff (opcode : UInt8) (body : Bytes) :
    parseRecordChecked opcode body ≠ .panic ↔ ¬ (opcode = op.ATTACHMENT ∧ EndsBeforeCrc body) := by
  by_cases hattachment : opcode = op.ATTACHMENT
  · subst hattachment
    rw [Ne, show parseRecordChecked op.ATTACHMENT body = parseAttachmentChecked body from rfl,
      parseAttachmentChecked_panics_iff]
    exact not_congr ⟨fun h => ⟨rfl, h⟩, And.right⟩
  · refine iff_of_true ?_ fun h => hattachment h.1
    unfold parseRecordChecked
    refine ite_ne_panic (fun _ => parseBody_returns) (ite_ne_panic (fun _ => parseBody_returns)
      (ite_ne_panic (fun _ => parseSchemaChecked_returns body)
        (ite_ne_panic (fun _ => parseBody_returns)
          (ite_ne_panic (fun _ => parseMessageChecked_returns body)
            (ite_ne_panic (fun _ => parseChunkChecked_returns body) ?_)))))
    refine ite_ne_panic (fun _ => parseBody_returns) (ite_ne_panic (fun _ => parseBody_returns)
      (ite_ne_panic (fun h => absurd h hattachment) ?_))
    exact ite_ne_panic (fun _ => parseBody_returns) (ite_ne_panic (fun _ => parseBody_returns)
      (ite_ne_panic (fun _ => parseBody_returns) (ite_ne_panic (fun _ => parseBody_returns)
        (ite_ne_panic (fun _ => parseBody_returns) (ite_ne_panic (fun _ => parseBody_returns)
          fun h => by cases h)))))

/-- An attachment without name and data, and without a checksum. -/
theorem parse_record_panics :
    ¬ ∀ opcode body, parseRecordChecked opcode body ≠ .panic := fun h =>
  h op.ATTACHMENT (List.replicate 32 0) rfl

end Mcap

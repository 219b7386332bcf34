import Mcap.SwiftRecords

/-! # What is serialized is deserialized

`Record.fields` are the bytes of a record in the format.  The library writes them (`serializeFields`),
or traps where a length does not fit in 32 bits (`Record.Fits`), and it reads them back wherever they
are encoded (`deserialize_encoded`).  Behind the fields there may be more, but for a message, whose data
go to the end of the record.
-/
namespace Mcap
namespace Swift

/-! ## Reading what is there -/

/-- **The round trip of a field**: `p` reads `a` off the bytes `enc`, wherever they are in a buffer. -/
def Reads {α : Type} (p : Read α) (enc : Bytes) (a : α) : Prop :=
  ∀ front back : Bytes, (front ++ (enc ++ back)).length ≤ intMax →
    p (front ++ (enc ++ back)) front.length = .ok (a, front.length + enc.length)

section
variable {α β : Type} {p : Read α} {enc enc' : Bytes} {a : α} {b : β}

theorem read_bind (f : α → Read β) (buffer : Bytes) (offset : Nat) :
    (p >>= f) buffer offset = (p buffer offset).bind fun x => f x.1 buffer x.2 := rfl

theorem Reads.pure (a : α) : Reads (Pure.pure a) [] a := fun _ _ _ => rfl

theorem Reads.bind {f : α → Read β} (h : Reads p enc a) (hf : Reads (f a) enc' b) :
    Reads (p >>= f) (enc ++ enc') b := by
  intro front back hlength
  have hmore := hf (front ++ enc) back (by
    simp only [List.length_append] at hlength ⊢
    omega)
  rw [List.append_assoc enc] at hlength ⊢
  rw [read_bind, h front (enc' ++ back) hlength]
  show f a (front ++ (enc ++ (enc' ++ back))) (front.length + enc.length) = _
  rw [List.append_assoc, List.length_append] at hmore
  rw [hmore, List.length_append, Nat.add_assoc]

theorem Reads.map (f : α → β) (h : Reads p enc a) : Reads (f <$> p) enc (f a) := by
  intro front back hlength
  show (p _ _).bind _ = _
  rw [h front back hlength]
  rfl

theorem Reads.bind_pure (f : α → β) (h : Reads p enc a) :
    Reads (p >>= fun x => Pure.pure (f x)) enc (f a) := by
  have hbind : Reads (p >>= fun x => Pure.pure (f x)) (enc ++ []) (f a) := h.bind (Reads.pure (f a))
  rwa [List.append_nil] at hbind

/-- `p` reads `b` off the rest of a buffer. -/
def ReadsRest (p : Read β) (enc : Bytes) (b : β) : Prop :=
  ∀ front : Bytes, (front ++ enc).length ≤ intMax → ∃ offset, p (front ++ enc) front.length = .ok (b, offset)

theorem Reads.bind_rest {f : α → Read β} (h : Reads p enc a) (hf : ReadsRest (f a) enc' b) :
    ReadsRest (p >>= f) (enc ++ enc') b := by
  intro front hlength
  obtain ⟨offset, hmore⟩ := hf (front ++ enc) (by rwa [List.append_assoc])
  rw [List.append_assoc, List.length_append] at hmore
  refine ⟨offset, ?_⟩
  rw [read_bind, h front enc' hlength]
  exact hmore

theorem deserializing_map (f : α → β) {bytes : Bytes} {offset : Nat}
    (h : p bytes 0 = .ok (a, offset)) : deserializingFields (f <$> p) bytes = .ok (f a) := by
  show ((p bytes 0).bind _).bind _ = _
  rw [h]
  rfl

theorem Reads.deserializing (h : Reads p enc a) {tail : Bytes} (hlength : (enc ++ tail).length ≤ intMax) :
    deserializingFields p (enc ++ tail) = .ok a := by
  unfold deserializingFields
  have hread := h [] tail hlength
  rw [List.nil_append, List.length_nil] at hread
  rw [hread]
  rfl

end

theorem reads_bytes (bytes : Bytes) (beyond : Nat → MCAPReadError) :
    Reads (readBytes bytes.length beyond) bytes bytes := by
  intro front back hlength
  simp only [List.length_append] at hlength
  unfold readBytes
  rw [plus_ok (by omega), Res.ok_bind,
    if_neg (by simp only [List.length_append]; omega), slice_mid]
  rfl

theorem readsRest (bytes : Bytes) : ReadsRest readRest bytes bytes := by
  intro front _
  have hslice := slice_mid front bytes []
  rw [List.append_nil, ← List.length_append] at hslice
  refine ⟨front.length, ?_⟩
  unfold readRest
  rw [hslice]
  rfl

theorem reads_int {size n : Nat} (h : n < 256 ^ size) : Reads (read size) (le size n) n := by
  have hread := (reads_bytes (le size n) fun offset => .readBeyondBounds offset size).map ofLe
  rwa [length_le, ofLe_le_of_lt h] at hread

theorem reads_UInt8 (n : UInt8) : Reads readUInt8 (u8 n) n := by
  have hread := (reads_int (show n.toNat < 256 ^ 1 from n.toNat_lt)).map UInt8.ofNat
  rwa [UInt8.ofNat_toNat] at hread

theorem reads_UInt16 (n : UInt16) : Reads readUInt16 (u16 n) n := by
  have hread := (reads_int (show n.toNat < 256 ^ 2 from n.toNat_lt)).map UInt16.ofNat
  rwa [UInt16.ofNat_toNat] at hread

theorem reads_UInt32 (n : UInt32) : Reads readUInt32 (u32 n) n := by
  have hread := (reads_int (show n.toNat < 256 ^ 4 from n.toNat_lt)).map UInt32.ofNat
  rwa [UInt32.ofNat_toNat] at hread

theorem reads_UInt64 (n : UInt64) : Reads readUInt64 (u64 n) n := by
  have hread := (reads_int (show n.toNat < 256 ^ 8 from n.toNat_lt)).map UInt64.ofNat
  rwa [UInt64.ofNat_toNat] at hread

theorem reads_counted {α : Type} {bytes : Bytes} {f : UInt32 → Read α} {a : α}
    (hfits : bytes.length < 2 ^ 32)
    (h : Reads (f (UInt32.ofNat bytes.length)) bytes a) :
    Reads (readUInt32 >>= f) (le 4 bytes.length ++ bytes) a := by
  have hread := reads_UInt32 (UInt32.ofNat bytes.length)
  unfold u32 at hread
  rw [UInt32.toNat_ofNat_of_lt' hfits] at hread
  exact hread.bind h

section
variable (repair : Bytes → String)

@[simp] theorem decoding_utf8 (s : String) : decoding repair (utf8 s) = s := by
  unfold decoding
  rw [fromUTF8?_utf8]
  rfl

theorem reads_prefixedString {s : String} (h : StringFits s) :
    Reads (readPrefixedString repair) (writeString s) s := by
  refine reads_counted h ?_
  have hread := (reads_bytes (utf8 s) fun _ => .stringLengthBeyondBounds).map (decoding repair)
  rwa [decoding_utf8, ← UInt32.toNat_ofNat_of_lt' h] at hread

end

theorem reads_UInt32PrefixedData {data : Bytes} (h : data.length < 2 ^ 32) :
    Reads readUInt32PrefixedData (le 4 data.length ++ data) data := by
  refine reads_counted h ?_
  have hread := reads_bytes data fun _ => .dataLengthBeyondBounds
  rwa [← UInt32.toNat_ofNat_of_lt' h] at hread

theorem reads_UInt64PrefixedData {data : Bytes} :
    Reads readUInt64PrefixedData (le 8 data.length ++ data) data := by
  intro front back hlength
  have hdata : data.length ≤ intMax := by
    simp only [List.length_append] at hlength
    omega
  have hfits : data.length < 2 ^ 64 := by
    unfold intMax at hdata
    omega
  have hread := reads_UInt64 (UInt64.ofNat data.length)
  unfold u64 at hread
  rw [UInt64.toNat_ofNat_of_lt' hfits] at hread
  refine hread.bind ?_ front back hlength
  have hint : Reads (readInt (UInt64.ofNat data.length).toNat) [] data.length := by
    intro front back _
    unfold readInt
    rw [UInt64.toNat_ofNat_of_lt' hfits, toInt_ok hdata]
    rfl
  exact hint.bind (reads_bytes data fun _ => .dataLengthBeyondBounds)

/-! ### Entries -/

section
variable {σ γ : Type} {step : σ → Read σ} {enc : γ → Bytes} {next : σ → γ → σ}

theorem whileWithin_entries (hstep : ∀ s x, Reads (step s) (enc x) (next s x))
    (hne : ∀ x, enc x ≠ []) {turns : Nat} (xs : List γ) (s : σ) (front : Bytes)
    (hturns : xs.length ≤ turns) (hlength : (front ++ xs.flatMap enc).length ≤ intMax) :
    whileWithin step turns s (front ++ xs.flatMap enc) front.length =
      .ok (xs.foldl next s, (front ++ xs.flatMap enc).length) := by
  induction turns generalizing xs s front with
  | zero =>
    cases List.length_eq_zero_iff.mp (Nat.le_zero.mp hturns)
    rw [List.flatMap_nil, List.append_nil]
    rfl
  | succ turns ih =>
    unfold whileWithin
    dsimp only
    cases xs with
    | nil =>
      rw [List.flatMap_nil, List.append_nil, if_neg (Nat.lt_irrefl _)]
      rfl
    | cons x xs =>
      have hpos := List.length_pos_iff.mpr (hne x)
      rw [List.flatMap_cons] at hlength ⊢
      rw [if_pos (by simp only [List.length_append]; omega), hstep s x front _ hlength, Res.ok_bind]
      dsimp only
      have hmore := ih xs (next s x) (front ++ enc x)
        (by rw [List.length_cons] at hturns; omega) (by rwa [List.append_assoc])
      rwa [List.append_assoc, List.length_append] at hmore

/-- **Entries in a subrange.** -/
theorem reads_prefixedEntries (hstep : ∀ s x, Reads (step s) (enc x) (next s x))
    (hne : ∀ x, enc x ≠ []) (xs : List γ) (empty : σ) (hfits : (xs.flatMap enc).length < 2 ^ 32) :
    Reads (readPrefixedEntries step empty) (le 4 (xs.flatMap enc).length ++ xs.flatMap enc)
      (xs.foldl next empty) := by
  refine reads_counted hfits ?_
  intro front back hlength
  dsimp only
  rw [UInt32.toNat_ofNat_of_lt' hfits]
  have hwithin : front.length + (xs.flatMap enc).length ≤ intMax := by
    simp only [List.length_append] at hlength ⊢
    omega
  rw [plus_ok hwithin, Res.ok_bind, slice_mid, Res.ok_bind]
  have hloop : whileWithin step (xs.flatMap enc).length empty (xs.flatMap enc) 0 =
      .ok (xs.foldl next empty, (xs.flatMap enc).length) :=
    whileWithin_entries hstep hne xs empty [] (length_le_flatMap fun x _ => hne x)
      (by rw [List.nil_append]; omega)
  rw [hloop, Res.ok_bind]
  dsimp only
  rw [plus_ok hwithin]
  rfl

end

/-- The entries of a string map. -/
def stringEntries (m : Dict String String) : Bytes := m.items.flatMap stringEntry

/-- The entries of a map of numbers. -/
def intEntries (m : Dict UInt16 UInt64) : Bytes := m.items.flatMap intEntry

/-- The entries of an array of pairs. -/
def pairEntries (l : List (UInt64 × UInt64)) : Bytes := l.flatMap fun e => u64 e.1 ++ u64 e.2

/-- Entries behind their length. -/
def prefixed (entries : Bytes) : Bytes := le 4 entries.length ++ entries

/-- The keys and values of a string map, and the map as a whole, have lengths of 32 bits. -/
structure StringMapFits (m : Dict String String) : Prop where
  entries : ∀ e ∈ m.items, StringFits e.1 ∧ StringFits e.2
  size : (stringEntries m).length < 2 ^ 32

theorem reads_prefixedStringMap (repair : Bytes → String) {m : Dict String String}
    (h : StringMapFits m) :
    Reads (readPrefixedStringMap repair) (prefixed (stringEntries m)) m := by
  -- the entries carry the proof that they fit, so that every one of them is read back
  have hstep : ∀ (result : Dict String String)
      (e : { e : String × String // StringFits e.1 ∧ StringFits e.2 }),
      Reads (stringMapStep repair result) (stringEntry e.1) (result.set e.1.1 e.1.2) :=
    fun result e => (reads_prefixedString repair e.2.1).bind
      ((reads_prefixedString repair e.2.2).bind_pure _)
  have hentries := reads_prefixedEntries hstep
    (fun e => by
      refine List.ne_nil_of_length_pos ?_
      unfold stringEntry
      rw [List.length_append, length_writeString]
      omega)
    (m.items.attachWith _ h.entries) ∅
  have hflat : (m.items.attachWith _ h.entries).flatMap (fun e => stringEntry e.1) =
      stringEntries m := by
    unfold stringEntries
    conv_rhs => rw [← List.attachWith_map_subtype_val h.entries]
    rw [List.flatMap_map]
  have hfold : (m.items.attachWith _ h.entries).foldl
      (fun (result : Dict String String) e => result.set e.1.1 e.1.2) ∅ = m := by
    conv_rhs => rw [← Dict.ofList_items m]
    unfold Dict.setAll
    conv_rhs => rw [← List.attachWith_map_subtype_val h.entries]
    rw [List.foldl_map]
  rw [hflat, hfold] at hentries
  exact hentries h.size

theorem reads_prefixedMap {m : Dict UInt16 UInt64} (h : (intEntries m).length < 2 ^ 32) :
    Reads readPrefixedMap (prefixed (intEntries m)) m := by
  have hstep : ∀ result e, Reads (mapStep result) (intEntry e) (result.set e.1 e.2) :=
    fun result e => (reads_UInt16 e.1).bind ((reads_UInt64 e.2).bind_pure _)
  have hentries := reads_prefixedEntries hstep
    (fun e => by
      refine List.ne_nil_of_length_pos ?_
      unfold intEntry
      rw [List.length_append, length_u16]
      omega)
    m.items ∅ h
  have hfold : m.items.foldl (fun (result : Dict UInt16 UInt64) e => result.set e.1 e.2) ∅ = m :=
    Dict.ofList_items m
  rwa [hfold] at hentries

theorem reads_prefixedTupleArray {l : List (UInt64 × UInt64)}
    (h : (pairEntries l).length < 2 ^ 32) :
    Reads readPrefixedTupleArray (prefixed (pairEntries l)) l := by
  have hstep : ∀ result e, Reads (tupleArrayStep result) (u64 e.1 ++ u64 e.2) (result ++ [e]) :=
    fun result e => (reads_UInt64 e.1).bind ((reads_UInt64 e.2).bind_pure _)
  have hentries := reads_prefixedEntries hstep
    (fun e => by
      refine List.ne_nil_of_length_pos ?_
      rw [List.length_append, length_u64]
      omega)
    l [] h
  have hfold : ∀ l s : List (UInt64 × UInt64), l.foldl (fun result e => result ++ [e]) s = s ++ l := by
    intro l
    induction l with
    | nil => exact fun s => (List.append_nil s).symm
    | cons e l ih =>
      intro s
      rw [List.foldl_cons, ih, List.append_assoc]
      rfl
  rwa [hfold, List.nil_append] at hentries

/-! ## Fields -/

def Header.fields (r : Header) : Bytes := writeString r.profile ++ writeString r.library

def Footer.fields (r : Footer) : Bytes :=
  u64 r.summaryStart ++ (u64 r.summaryOffsetStart ++ u32 r.summaryCRC)

def Schema.fields (r : Schema) : Bytes :=
  u16 r.id ++ (writeString r.name ++ (writeString r.encoding ++ prefixed r.data))

def Channel.fields (r : Channel) : Bytes :=
  u16 r.id ++ (u16 r.schemaID ++ (writeString r.topic ++ (writeString r.messageEncoding ++
    prefixed (stringEntries r.metadata))))

def Message.fields (r : Message) : Bytes :=
  u16 r.channelID ++ (u32 r.sequence ++ (u64 r.logTime ++ (u64 r.publishTime ++ r.data)))

def Chunk.fields (r : Chunk) : Bytes :=
  u64 r.messageStartTime ++ (u64 r.messageEndTime ++ (u64 r.uncompressedSize ++
    (u32 r.uncompressedCRC ++ (writeString r.compression ++ (le 8 r.records.length ++ r.records)))))

def MessageIndex.fields (r : MessageIndex) : Bytes :=
  u16 r.channelID ++ prefixed (pairEntries r.records)

def ChunkIndex.fields (r : ChunkIndex) : Bytes :=
  u64 r.messageStartTime ++ (u64 r.messageEndTime ++ (u64 r.chunkStartOffset ++
    (u64 r.chunkLength ++ (prefixed (intEntries r.messageIndexOffsets) ++
      (u64 r.messageIndexLength ++ (writeString r.compression ++ (u64 r.compressedSize ++
        u64 r.uncompressedSize)))))))

/-- The fields of an attachment before its CRC. -/
def Attachment.covered (r : Attachment) : Bytes :=
  u64 r.logTime ++ (u64 r.createTime ++ (writeString r.name ++ (writeString r.mediaType ++
    (le 8 r.data.length ++ r.data))))

def Attachment.fields (r : Attachment) : Bytes := r.covered ++ u32 (crc32 r.covered)

def AttachmentIndex.fields (r : AttachmentIndex) : Bytes :=
  u64 r.offset ++ (u64 r.length ++ (u64 r.logTime ++ (u64 r.createTime ++ (u64 r.dataSize ++
    (writeString r.name ++ writeString r.mediaType)))))

def Statistics.fields (r : Statistics) : Bytes :=
  u64 r.messageCount ++ (u16 r.schemaCount ++ (u32 r.channelCount ++ (u32 r.attachmentCount ++
    (u32 r.metadataCount ++ (u32 r.chunkCount ++ (u64 r.messageStartTime ++ (u64 r.messageEndTime ++
      prefixed (intEntries r.channelMessageCounts))))))))

def Metadata.fields (r : Metadata) : Bytes := writeString r.name ++ prefixed (stringEntries r.metadata)

def MetadataIndex.fields (r : MetadataIndex) : Bytes :=
  u64 r.offset ++ (u64 r.length ++ writeString r.name)

def SummaryOffset.fields (r : SummaryOffset) : Bytes :=
  u8 r.groupOpcode ++ (u64 r.groupStart ++ u64 r.groupLength)

def DataEnd.fields (r : DataEnd) : Bytes := u32 r.dataSectionCRC

/-- The bytes of a record's fields. -/
def Record.fields : Record → Bytes
  | .header r => r.fields
  | .footer r => r.fields
  | .schema r => r.fields
  | .channel r => r.fields
  | .message r => r.fields
  | .chunk r => r.fields
  | .messageIndex r => r.fields
  | .chunkIndex r => r.fields
  | .attachment r => r.fields
  | .attachmentIndex r => r.fields
  | .statistics r => r.fields
  | .metadata r => r.fields
  | .metadataIndex r => r.fields
  | .summaryOffset r => r.fields
  | .dataEnd r => r.fields

/-- **Lengths of 32 bits** in front of strings, data, maps and arrays. -/
def Record.Fits : Record → Prop
  | .header r => StringFits r.profile ∧ StringFits r.library
  | .schema r => StringFits r.name ∧ StringFits r.encoding ∧ r.data.length < 2 ^ 32
  | .channel r => StringFits r.topic ∧ StringFits r.messageEncoding ∧ StringMapFits r.metadata
  | .chunk r => StringFits r.compression
  | .messageIndex r => (pairEntries r.records).length < 2 ^ 32
  | .chunkIndex r => (intEntries r.messageIndexOffsets).length < 2 ^ 32 ∧ StringFits r.compression
  | .attachment r => StringFits r.name ∧ StringFits r.mediaType
  | .attachmentIndex r => StringFits r.name ∧ StringFits r.mediaType
  | .statistics r => (intEntries r.channelMessageCounts).length < 2 ^ 32
  | .metadata r => StringFits r.name ∧ StringMapFits r.metadata
  | .metadataIndex r => StringFits r.name
  | .footer _ | .message _ | .summaryOffset _ | .dataEnd _ => True

/-! ## Deserializing what is encoded -/

/-- **The bytes that stand for a record**: its fields and, but for a message, bytes that a later
version of the format may add.  An attachment may have 0 for its CRC. -/
inductive Encodes : Record → Bytes → Prop
  | fields {r : Record} (tail : Bytes) (hfits : r.Fits) (h : ∀ m, r = .message m → tail = []) :
      Encodes r (r.fields ++ tail)
  | noCRC {a : Attachment} (tail : Bytes) (hfits : Record.Fits (.attachment a)) :
      Encodes (.attachment a) (a.covered ++ (u32 0 ++ tail))

section
variable (repair : Bytes → String)

theorem reads_attachmentFields {a : Attachment} (h : Record.Fits (.attachment a)) :
    Reads (Attachment.readFields repair) a.covered a :=
  (reads_UInt64 _).bind <| (reads_UInt64 _).bind <| (reads_prefixedString repair h.1).bind <|
    (reads_prefixedString repair h.2).bind <| reads_UInt64PrefixedData.bind_pure _

theorem deserializing_attachment {a : Attachment} (h : Record.Fits (.attachment a)) {crc : UInt32}
    (hcrc : crc = 0 ∨ crc = crc32 a.covered) (tail : Bytes)
    (hlength : (a.covered ++ (u32 crc ++ tail)).length ≤ intMax) :
    deserializingFields (Record.read repair .attachment) (a.covered ++ (u32 crc ++ tail)) =
      .ok (.attachment a) := by
  have hfields := reads_attachmentFields repair h [] (u32 crc ++ tail) hlength
  rw [List.nil_append, List.length_nil, Nat.zero_add] at hfields
  have hexpected := reads_UInt32 crc a.covered tail hlength
  have hcovered : slice (a.covered ++ (u32 crc ++ tail)) 0 a.covered.length = .ok a.covered := by
    have hslice := slice_mid [] a.covered (u32 crc ++ tail)
    rwa [List.nil_append, List.length_nil, Nat.zero_add] at hslice
  have hread : Attachment.read repair (a.covered ++ (u32 crc ++ tail)) 0 =
      .ok (a, a.covered.length + (u32 crc).length) := by
    unfold Attachment.read
    rw [read_bind, hfields]
    show (readOffset >>= _) _ _ = _
    rw [read_bind]
    show (readUInt32 >>= _) _ _ = _
    rw [read_bind, hexpected]
    show (checkCRC crc a.covered.length >>= _) _ _ = _
    rw [read_bind]
    unfold checkCRC
    rw [hcovered, Res.ok_bind, if_neg (by rcases hcrc with rfl | rfl <;> simp)]
    rfl
  exact deserializing_map _ hread

/-- **What is encoded is deserialized.** -/
theorem deserialize_encoded {r : Record} {body : Bytes} (h : Encodes r body)
    (hlength : body.length ≤ intMax) :
    deserializingFields (Record.read repair r.opcode) body = .ok r := by
  cases h with
  | noCRC tail hfits => exact deserializing_attachment repair hfits (.inl rfl) tail hlength
  | fields tail hfits hmessage =>
    cases r with
    | header r =>
      exact Reads.deserializing ((((reads_prefixedString repair hfits.1).bind <|
        (reads_prefixedString repair hfits.2).bind_pure _).map _)) hlength
    | footer r =>
      exact Reads.deserializing (((reads_UInt64 _).bind <| (reads_UInt64 _).bind <|
        (reads_UInt32 _).bind_pure _).map _) hlength
    | schema r =>
      exact Reads.deserializing (((reads_UInt16 _).bind <| (reads_prefixedString repair hfits.1).bind <|
        (reads_prefixedString repair hfits.2.1).bind <|
        (reads_UInt32PrefixedData hfits.2.2).bind_pure _).map _) hlength
    | channel r =>
      exact Reads.deserializing (((reads_UInt16 _).bind <| (reads_UInt16 _).bind <|
        (reads_prefixedString repair hfits.1).bind <| (reads_prefixedString repair hfits.2.1).bind <|
        (reads_prefixedStringMap repair hfits.2.2).bind_pure _).map _) hlength
    | message r =>
      obtain rfl := hmessage r rfl
      rw [List.append_nil] at hlength ⊢
      have hrest : ReadsRest (readRest >>= fun data => pure { r with data }) r.data r := by
        intro front hfront
        obtain ⟨offset, hread⟩ := readsRest r.data front hfront
        refine ⟨offset, ?_⟩
        rw [read_bind, hread]
        rfl
      have hmsg : ReadsRest Message.read r.fields r :=
        (reads_UInt16 _).bind_rest <| (reads_UInt32 _).bind_rest <| (reads_UInt64 _).bind_rest <|
          (reads_UInt64 _).bind_rest hrest
      obtain ⟨offset, hread⟩ := hmsg [] hlength
      exact deserializing_map _ hread
    | chunk r =>
      exact Reads.deserializing (((reads_UInt64 _).bind <| (reads_UInt64 _).bind <|
        (reads_UInt64 _).bind <| (reads_UInt32 _).bind <| (reads_prefixedString repair hfits).bind <|
        reads_UInt64PrefixedData.bind_pure _).map _) hlength
    | messageIndex r =>
      exact Reads.deserializing (((reads_UInt16 _).bind <|
        (reads_prefixedTupleArray hfits).bind_pure _).map _) hlength
    | chunkIndex r =>
      exact Reads.deserializing (((reads_UInt64 _).bind <| (reads_UInt64 _).bind <|
        (reads_UInt64 _).bind <| (reads_UInt64 _).bind <| (reads_prefixedMap hfits.1).bind <|
        (reads_UInt64 _).bind <| (reads_prefixedString repair hfits.2).bind <| (reads_UInt64 _).bind <|
        (reads_UInt64 _).bind_pure _).map _) hlength
    | attachment r =>
      unfold Record.fields Attachment.fields at hlength ⊢
      rw [List.append_assoc] at hlength ⊢
      exact deserializing_attachment repair hfits (.inr rfl) tail hlength
    | attachmentIndex r =>
      exact Reads.deserializing (((reads_UInt64 _).bind <| (reads_UInt64 _).bind <|
        (reads_UInt64 _).bind <| (reads_UInt64 _).bind <| (reads_UInt64 _).bind <|
        (reads_prefixedString repair hfits.1).bind <|
        (reads_prefixedString repair hfits.2).bind_pure _).map _) hlength
    | statistics r =>
      exact Reads.deserializing (((reads_UInt64 _).bind <| (reads_UInt16 _).bind <|
        (reads_UInt32 _).bind <| (reads_UInt32 _).bind <| (reads_UInt32 _).bind <|
        (reads_UInt32 _).bind <| (reads_UInt64 _).bind <| (reads_UInt64 _).bind <|
        (reads_prefixedMap hfits).bind_pure _).map _) hlength
    | metadata r =>
      exact Reads.deserializing (((reads_prefixedString repair hfits.1).bind <|
        (reads_prefixedStringMap repair hfits.2).bind_pure _).map _) hlength
    | metadataIndex r =>
      exact Reads.deserializing (((reads_UInt64 _).bind <| (reads_UInt64 _).bind <|
        (reads_prefixedString repair hfits).bind_pure _).map _) hlength
    | summaryOffset r =>
      exact Reads.deserializing (((reads_UInt8 _).bind <| (reads_UInt64 _).bind <|
        (reads_UInt64 _).bind_pure _).map _) hlength
    | dataEnd r => exact Reads.deserializing (((reads_UInt32 _).bind_pure _).map _) hlength

end

/-- **What is serialized is deserialized**, whatever a later version of the format adds behind it, and
no bytes stand for two records of a kind. -/
theorem encoded_exactly (repair : Bytes → String) (body : Bytes) :
    (∀ r, Encodes r body → body.length ≤ intMax →
      deserializingFields (Record.read repair r.opcode) body = .ok r) ∧
    ∀ r r', Encodes r body → Encodes r' body → r.opcode = r'.opcode → body.length ≤ intMax →
      r = r' := by
  refine ⟨fun r h => deserialize_encoded repair h, fun r r' h h' hopcode hlength => ?_⟩
  have hread := deserialize_encoded repair h hlength
  rw [hopcode, deserialize_encoded repair h' hlength] at hread
  exact (Res.ok.inj hread).symm

end Swift
end Mcap

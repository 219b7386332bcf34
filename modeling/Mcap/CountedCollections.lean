import Mcap.RecordExtension
import Mcap.Spelling

/-! # Byte-counted collections

Five records have a map or an array behind its length in bytes.  Their loops go on while the position
is in front of the announced end (`parse_vec`, `parse_string_map`, `parse_int_map` of
`records.rs`), so that the last entry may go over it, and takes bytes of the next field.

`Collection.Exact` says of a body that its entries are exactly the announced bytes, and
`counted_exactly_iff` that it is so of a body that is accepted if and only if the announced length ends
an entry.  `counted_exactly_fails` is a message index that announces one byte, and has one entry.
-/
namespace Mcap

/-! ## What is taken of a field -/

theorem spells_int {α : Type} {w : Nat} {of : Nat → α} {value : α → Nat}
    (h : ∀ n < 256 ^ w, value (of n) = n) :
    Spells (of <$> readLe BinError.io w) fun a enc => enc = le w (value a) := by
  refine (Spells.le BinError.io w).bind (f := fun n => pure (of n)) ?_
  rintro n _ ⟨rfl, hn⟩
  refine (Spells.pure _).mono ?_
  rintro _ _ ⟨rfl, rfl⟩
  rw [List.append_nil, h n hn]

theorem spells_u16 : Spells readU16 fun n enc => enc = u16 n :=
  spells_int fun _ hn => UInt16.toNat_ofNat_of_lt' hn

theorem spells_u32 : Spells readU32 fun n enc => enc = u32 n :=
  spells_int fun _ hn => UInt32.toNat_ofNat_of_lt' hn

theorem spells_u64 : Spells readU64 fun n enc => enc = u64 n :=
  spells_int fun _ hn => UInt64.toNat_ofNat_of_lt' hn

theorem utf8_of_fromUTF8? {bytes : Bytes} {s : String}
    (h : String.fromUTF8? ⟨bytes.toArray⟩ = some s) : utf8 s = bytes := by
  unfold String.fromUTF8? at h
  split at h
  · cases h
    simp [utf8, String.fromUTF8]
  · cases h

theorem spells_string : Spells readString fun s enc => enc = writeString s ∧ StringFits s := by
  refine (Spells.le BinError.io 4).bind ?_
  rintro n _ ⟨rfl, hn⟩
  refine (Spells.exact BinError.io n).bind ?_
  rintro _ bytes ⟨rfl, hlen⟩
  refine Spells.position fun c => ?_
  cases hs : String.fromUTF8? ⟨bytes.toArray⟩ with
  | none => exact Spells.throw _ _
  | some s =>
    refine (Spells.pure s).mono ?_
    rintro _ _ ⟨rfl, rfl⟩
    have hbytes := utf8_of_fromUTF8? hs
    rw [List.append_nil, writeString, StringFits, hbytes, hlen]
    exact ⟨rfl, hn⟩

/-! ## What is taken of a collection -/

/-- **A collection is taken**: an announced length, and encoded entries behind which the loop stops. -/
def Taken (entries : List Bytes) (enc : Bytes) : Prop :=
  ∃ n read, n < 2 ^ 32 ∧ read.Perm entries ∧ Stops n read ∧ enc = le 4 n ++ read.flatten

theorem spells_map {K V : Type} [Ord K] [Std.TransOrd K] [Std.LawfulEqOrd K] [DecidableEq K]
    {entry : Read BinError (K × V)} {encode : K × V → Bytes} {P : K × V → Prop}
    (hentry : Spells entry fun e enc => enc = encode e ∧ P e) (hne : ∀ e, encode e ≠ []) :
    Spells (readMap entry) fun m enc =>
      Taken (m.toList.map encode) enc ∧ ∀ e ∈ m.toList, P e := by
  refine (Spells.counted (I := fun m es => es.Perm (m.toList.map encode) ∧ ∀ e ∈ m.toList, P e)
    ⟨.refl _, fun _ he => by cases he⟩ ?_).mono ?_
  · rintro pos m es ⟨hperm, hP⟩
    refine hentry.bind ?_
    rintro e _ ⟨rfl, he⟩
    by_cases hc : m.contains e.1 = true
    · rw [if_pos hc]
      exact Spells.throw _ _
    · rw [if_neg hc]
      refine (Spells.pure _).mono ?_
      rintro _ _ ⟨rfl, rfl⟩
      have hinsert := BTreeMap.toList_insert_perm (Bool.eq_false_iff.mpr hc) e.2
      rw [List.append_nil]
      refine ⟨hne e, ?_, fun e' he' => ?_⟩
      · refine List.Perm.trans ?_ (hinsert.map encode).symm
        exact List.perm_append_comm.trans (hperm.cons _)
      · rcases List.mem_cons.mp (hinsert.mem_iff.mp he') with rfl | hold
        · exact he
        · exact hP e' hold
  · rintro m enc ⟨n, read, hn, ⟨hperm, hP⟩, hstops, rfl⟩
    exact ⟨⟨n, read, hn, hperm, hstops, rfl⟩, hP⟩

theorem spells_vec {α : Type} {elem : Read BinError α} {encode : α → Bytes}
    (helem : Spells elem fun x enc => enc = encode x) (hne : ∀ x, encode x ≠ []) :
    Spells (readVec elem) fun xs enc => Taken (xs.map encode) enc := by
  have hstep : ∀ (_ : Nat) (xs : List α) es, es = xs.map encode →
      Spells (do let x ← elem; pure (xs ++ [x])) fun xs' enc =>
        enc ≠ [] ∧ es ++ [enc] = xs'.map encode := by
    rintro pos xs _ rfl
    refine helem.bind ?_
    rintro x _ rfl
    refine (Spells.pure _).mono ?_
    rintro _ _ ⟨rfl, rfl⟩
    rw [List.append_nil, List.map_append]
    exact ⟨hne x, rfl⟩
  refine Spells.mono (Spells.counted (I := fun (xs : List α) es => es = xs.map encode) rfl hstep) ?_
  rintro xs enc ⟨n, read, hn, rfl, hstops, rfl⟩
  exact ⟨n, _, hn, .refl _, hstops, rfl⟩

theorem spells_stringMap : Spells readStringMap fun m enc =>
    Taken (m.toList.map stringEntry) enc ∧ ∀ e ∈ m.toList, StringFits e.1 ∧ StringFits e.2 := by
  refine spells_map ?_ fun e he => by simpa [stringEntry] using congrArg List.length he
  refine spells_string.bind ?_
  rintro k _ ⟨rfl, hk⟩
  refine spells_string.bind ?_
  rintro v _ ⟨rfl, hv⟩
  refine (Spells.pure _).mono ?_
  rintro _ _ ⟨rfl, rfl⟩
  rw [List.append_nil]
  exact ⟨rfl, hk, hv⟩

theorem spells_intMap : Spells readIntMap fun m enc => Taken (m.toList.map intEntry) enc := by
  refine (spells_map (P := fun _ => True) ?_ fun e he => ?_).mono fun m enc h => h.1
  · refine spells_u16.bind ?_
    rintro k _ rfl
    refine spells_u64.bind ?_
    rintro v _ rfl
    refine (Spells.pure _).mono ?_
    rintro _ _ ⟨rfl, rfl⟩
    rw [List.append_nil]
    exact ⟨rfl, trivial⟩
  · simpa [intEntry] using congrArg List.length he

theorem spells_indexEntries :
    Spells (readVec MessageIndexEntry.read) fun xs enc => Taken (xs.map MessageIndexEntry.bytes) enc := by
  refine spells_vec ?_ fun e he => by simpa [MessageIndexEntry.bytes] using congrArg List.length he
  refine spells_u64.bind ?_
  rintro logTime _ rfl
  refine spells_u64.bind ?_
  rintro offset _ rfl
  refine (Spells.pure _).mono ?_
  rintro _ _ ⟨rfl, rfl⟩
  rw [List.append_nil]
  rfl

/-! ## Records with a collection -/

/-- A collection of a record: the fields before it, its encoded entries, and the fields behind it. -/
structure Collection where
  before : Bytes
  entries : List Bytes
  behind : Bytes
deriving DecidableEq

/-- The collection of a record that has one. -/
def Record.collection : Record → Option Collection
  | .channel c => some
      { before := u16 c.id ++ u16 c.schemaId ++ writeString c.topic ++ writeString c.messageEncoding
        entries := c.metadata.toList.map stringEntry
        behind := [] }
  | .messageIndex i => some
      { before := u16 i.channelId
        entries := i.records.map MessageIndexEntry.bytes
        behind := [] }
  | .chunkIndex i => some
      { before := u64 i.messageStartTime ++ u64 i.messageEndTime ++ u64 i.chunkStartOffset ++
          u64 i.chunkLength
        entries := i.messageIndexOffsets.toList.map intEntry
        behind := u64 i.messageIndexLength ++ writeString i.compression ++ u64 i.compressedSize ++
          u64 i.uncompressedSize }
  | .statistics s => some
      { before := u64 s.messageCount ++ u16 s.schemaCount ++ u32 s.channelCount ++
          u32 s.attachmentCount ++ u32 s.metadataCount ++ u32 s.chunkCount ++ u64 s.messageStartTime ++
          u64 s.messageEndTime
        entries := s.channelMessageCounts.toList.map intEntry
        behind := [] }
  | .metadata m => some
      { before := writeString m.name
        entries := m.metadata.toList.map stringEntry
        behind := [] }
  | _ => none

/-- **The entries are exactly the announced bytes**: the body has the fields before the collection, the
length of the entries, the entries in some order, and then the fields behind it. -/
def Collection.Exact (k : Collection) (body : Bytes) : Prop :=
  ∃ (read : List Bytes) (extra : Bytes), read.Perm k.entries ∧ read.flatten.length < 2 ^ 32 ∧
    body = k.before ++ (le 4 read.flatten.length ++ read.flatten ++ (k.behind ++ extra))

/-- What `parse_record` takes of the body. -/
def Collection.Found (k : Collection) (body : Bytes) : Prop :=
  ∃ enc extra, Taken k.entries enc ∧ body = k.before ++ (enc ++ (k.behind ++ extra))

/-- The fields before a collection, and those of an entry, by the opcode. -/
def collectionFields (opcode : UInt8) : Option (List Field × List Field) :=
  if opcode = op.CHANNEL then
    some ([.fixed 2, .fixed 2, .string, .string], [.string, .string])
  else if opcode = op.MESSAGE_INDEX then some ([.fixed 2], [.fixed 8, .fixed 8])
  else if opcode = op.CHUNK_INDEX then
    some ([.fixed 8, .fixed 8, .fixed 8, .fixed 8], [.fixed 2, .fixed 8])
  else if opcode = op.STATISTICS then
    some ([.fixed 8, .fixed 2, .fixed 4, .fixed 4, .fixed 4, .fixed 4, .fixed 8, .fixed 8],
      [.fixed 2, .fixed 8])
  else if opcode = op.METADATA then some ([.string], [.string, .string])
  else none

/-- **The announced length ends an entry**: it is the size of the first entries behind it, as their own
length fields have it. -/
def EndsEntry (opcode : UInt8) (body : Bytes) : Prop :=
  ∃ before entry, collectionFields opcode = some (before, entry) ∧
    Row entry (body.drop (rowSize before body + 4)) (ofLe ((body.drop (rowSize before body)).take 4))

/-! ## The fields before and behind -/

theorem spans_fixed {w : Nat} {fs : List Field} {e enc : Bytes} (he : e.length = w) (h : Spans fs enc) :
    Spans (.fixed w :: fs) (e ++ enc) := spans_cons (fun _ => he.symm) h

theorem spans_string {s : String} {fs : List Field} {enc : Bytes} (hs : StringFits s)
    (h : Spans fs enc) : Spans (.string :: fs) (writeString s ++ enc) :=
  spans_cons (size_string hs rfl) h

theorem spans_stringEntry {e : String × String} (he : StringFits e.1 ∧ StringFits e.2) :
    Spans [.string, .string] (stringEntry e) := by
  have h := spans_string he.1 (spans_string he.2 spans_nil)
  rwa [List.append_nil] at h

theorem spans_intEntry (e : UInt16 × UInt64) : Spans [.fixed 2, .fixed 8] (intEntry e) := by
  have h := spans_fixed (length_u16 e.1) (spans_fixed (length_u64 e.2) spans_nil)
  rwa [List.append_nil] at h

theorem spans_indexEntry (e : MessageIndexEntry) : Spans [.fixed 8, .fixed 8] e.bytes := by
  have h := spans_fixed (length_u64 e.logTime) (spans_fixed (length_u64 e.offset) spans_nil)
  rwa [List.append_nil] at h

/-- **A record with its collection**: it is found in the body, between fields that say how long they
are. -/
structure Collected (opcode : UInt8) (body : Bytes) (k : Collection) : Prop where
  found : k.Found body
  fields : ∃ before entry, collectionFields opcode = some (before, entry) ∧ Spans before k.before ∧
    ∀ e ∈ k.entries, Spans entry e

theorem collected_of_spells {α : Type} {p : Read BinError α} {record : α → Record} {body : Bytes}
    {r : Record} {P : α → Bytes → Prop} (hp : Spells p P) (h : parseBody p record body = .ok r) :
    ∃ a enc extra, r = record a ∧ body = enc ++ extra ∧ P a enc := by
  unfold parseBody at h
  split at h
  · rename_i a c hread
    cases h
    obtain ⟨enc, hrest, -, ha⟩ := hp _ _ _ (readLeFrom_eq_ok hread)
    exact ⟨a, enc, c.rest, rfl, hrest, ha⟩
  · cases h

section
variable {body : Bytes} {r : Record}

theorem collected_channel (h : parseRecord op.CHANNEL body = .ok r) :
    ∃ k, r.collection = some k ∧ Collected op.CHANNEL body k := by
  have hread : Spells ChannelRecord.read fun c enc => StringFits c.topic ∧
      StringFits c.messageEncoding ∧ (∀ e ∈ c.metadata.toList, StringFits e.1 ∧ StringFits e.2) ∧
      ∃ map, Taken (c.metadata.toList.map stringEntry) map ∧ enc = u16 c.id ++ (u16 c.schemaId ++
        (writeString c.topic ++ (writeString c.messageEncoding ++ map))) := by
    refine spells_u16.bind ?_
    rintro id _ rfl
    refine spells_u16.bind ?_
    rintro schemaId _ rfl
    refine spells_string.bind ?_
    rintro topic _ ⟨rfl, ht⟩
    refine spells_string.bind ?_
    rintro messageEncoding _ ⟨rfl, he⟩
    refine spells_stringMap.bind ?_
    rintro metadata map ⟨hmap, hm⟩
    refine (Spells.pure _).mono ?_
    rintro _ _ ⟨rfl, rfl⟩
    exact ⟨ht, he, hm, map, hmap, by rw [List.append_nil]⟩
  obtain ⟨c, _, extra, rfl, hbody, ht, he, hm, map, hmap, rfl⟩ := collected_of_spells hread h
  refine ⟨_, rfl, ⟨map, extra, hmap, ?_⟩, _, _, rfl, ?_, ?_⟩
  · rw [hbody]
    simp only [List.append_assoc, List.nil_append]
  · have hspans := spans_fixed (length_u16 c.id) (spans_fixed (length_u16 c.schemaId)
      (spans_string ht (spans_string he spans_nil)))
    simpa only [List.append_assoc, List.append_nil] using hspans
  · intro e hmem
    obtain ⟨entry, hentry, rfl⟩ := List.mem_map.mp hmem
    exact spans_stringEntry (hm entry hentry)

theorem collected_metadata (h : parseRecord op.METADATA body = .ok r) :
    ∃ k, r.collection = some k ∧ Collected op.METADATA body k := by
  have hread : Spells Metadata.read fun m enc => StringFits m.name ∧
      (∀ e ∈ m.metadata.toList, StringFits e.1 ∧ StringFits e.2) ∧
      ∃ map, Taken (m.metadata.toList.map stringEntry) map ∧ enc = writeString m.name ++ map := by
    refine spells_string.bind ?_
    rintro name _ ⟨rfl, hn⟩
    refine spells_stringMap.bind ?_
    rintro metadata map ⟨hmap, hm⟩
    refine (Spells.pure _).mono ?_
    rintro _ _ ⟨rfl, rfl⟩
    exact ⟨hn, hm, map, hmap, by rw [List.append_nil]⟩
  obtain ⟨m, _, extra, rfl, hbody, hn, hm, map, hmap, rfl⟩ := collected_of_spells hread h
  refine ⟨_, rfl, ⟨map, extra, hmap, ?_⟩, _, _, rfl, ?_, ?_⟩
  · rw [hbody]
    simp only [List.append_assoc, List.nil_append]
  · have hspans := spans_string hn spans_nil
    rwa [List.append_nil] at hspans
  · intro e hmem
    obtain ⟨entry, hentry, rfl⟩ := List.mem_map.mp hmem
    exact spans_stringEntry (hm entry hentry)

theorem collected_messageIndex (h : parseRecord op.MESSAGE_INDEX body = .ok r) :
    ∃ k, r.collection = some k ∧ Collected op.MESSAGE_INDEX body k := by
  have hread : Spells MessageIndex.read fun i enc => ∃ entries,
      Taken (i.records.map MessageIndexEntry.bytes) entries ∧ enc = u16 i.channelId ++ entries := by
    refine spells_u16.bind ?_
    rintro channelId _ rfl
    refine spells_indexEntries.bind ?_
    rintro records entries hentries
    refine (Spells.pure _).mono ?_
    rintro _ _ ⟨rfl, rfl⟩
    exact ⟨entries, hentries, by rw [List.append_nil]⟩
  obtain ⟨i, _, extra, rfl, hbody, entries, hentries, rfl⟩ := collected_of_spells hread h
  refine ⟨_, rfl, ⟨entries, extra, hentries, ?_⟩, _, _, rfl, ?_, ?_⟩
  · rw [hbody]
    simp only [List.append_assoc, List.nil_append]
  · have hspans := spans_fixed (length_u16 i.channelId) spans_nil
    rwa [List.append_nil] at hspans
  · intro e hmem
    obtain ⟨entry, -, rfl⟩ := List.mem_map.mp hmem
    exact spans_indexEntry entry

theorem collected_chunkIndex (h : parseRecord op.CHUNK_INDEX body = .ok r) :
    ∃ k, r.collection = some k ∧ Collected op.CHUNK_INDEX body k := by
  have hread : Spells ChunkIndex.read fun i enc => ∃ map,
      Taken (i.messageIndexOffsets.toList.map intEntry) map ∧ enc = u64 i.messageStartTime ++
        (u64 i.messageEndTime ++ (u64 i.chunkStartOffset ++ (u64 i.chunkLength ++ (map ++
          (u64 i.messageIndexLength ++ (writeString i.compression ++ (u64 i.compressedSize ++
            u64 i.uncompressedSize))))))) := by
    refine spells_u64.bind ?_
    rintro messageStartTime _ rfl
    refine spells_u64.bind ?_
    rintro messageEndTime _ rfl
    refine spells_u64.bind ?_
    rintro chunkStartOffset _ rfl
    refine spells_u64.bind ?_
    rintro chunkLength _ rfl
    refine spells_intMap.bind ?_
    rintro messageIndexOffsets map hmap
    refine spells_u64.bind ?_
    rintro messageIndexLength _ rfl
    refine spells_string.bind ?_
    rintro compression _ ⟨rfl, -⟩
    refine spells_u64.bind ?_
    rintro compressedSize _ rfl
    refine spells_u64.bind ?_
    rintro uncompressedSize _ rfl
    refine (Spells.pure _).mono ?_
    rintro _ _ ⟨rfl, rfl⟩
    exact ⟨map, hmap, by rw [List.append_nil]⟩
  obtain ⟨i, _, extra, rfl, hbody, map, hmap, rfl⟩ := collected_of_spells hread h
  refine ⟨_, rfl, ⟨map, extra, hmap, ?_⟩, _, _, rfl, ?_, ?_⟩
  · rw [hbody]
    simp only [List.append_assoc]
  · have hspans := spans_fixed (length_u64 i.messageStartTime)
      (spans_fixed (length_u64 i.messageEndTime) (spans_fixed (length_u64 i.chunkStartOffset)
        (spans_fixed (length_u64 i.chunkLength) spans_nil)))
    simpa only [List.append_assoc, List.append_nil] using hspans
  · intro e hmem
    obtain ⟨entry, -, rfl⟩ := List.mem_map.mp hmem
    exact spans_intEntry entry

theorem collected_statistics (h : parseRecord op.STATISTICS body = .ok r) :
    ∃ k, r.collection = some k ∧ Collected op.STATISTICS body k := by
  have hread : Spells Statistics.read fun s enc => ∃ map,
      Taken (s.channelMessageCounts.toList.map intEntry) map ∧ enc = u64 s.messageCount ++
        (u16 s.schemaCount ++ (u32 s.channelCount ++ (u32 s.attachmentCount ++ (u32 s.metadataCount ++
          (u32 s.chunkCount ++ (u64 s.messageStartTime ++ (u64 s.messageEndTime ++ map))))))) := by
    refine spells_u64.bind ?_
    rintro messageCount _ rfl
    refine spells_u16.bind ?_
    rintro schemaCount _ rfl
    refine spells_u32.bind ?_
    rintro channelCount _ rfl
    refine spells_u32.bind ?_
    rintro attachmentCount _ rfl
    refine spells_u32.bind ?_
    rintro metadataCount _ rfl
    refine spells_u32.bind ?_
    rintro chunkCount _ rfl
    refine spells_u64.bind ?_
    rintro messageStartTime _ rfl
    refine spells_u64.bind ?_
    rintro messageEndTime _ rfl
    refine spells_intMap.bind ?_
    rintro channelMessageCounts map hmap
    refine (Spells.pure _).mono ?_
    rintro _ _ ⟨rfl, rfl⟩
    exact ⟨map, hmap, by rw [List.append_nil]⟩
  obtain ⟨s, _, extra, rfl, hbody, map, hmap, rfl⟩ := collected_of_spells hread h
  refine ⟨_, rfl, ⟨map, extra, hmap, ?_⟩, _, _, rfl, ?_, ?_⟩
  · rw [hbody]
    simp only [List.append_assoc, List.nil_append]
  · have hspans := spans_fixed (length_u64 s.messageCount) (spans_fixed (length_u16 s.schemaCount)
      (spans_fixed (length_u32 s.channelCount) (spans_fixed (length_u32 s.attachmentCount)
        (spans_fixed (length_u32 s.metadataCount) (spans_fixed (length_u32 s.chunkCount)
          (spans_fixed (length_u64 s.messageStartTime) (spans_fixed (length_u64 s.messageEndTime)
            spans_nil)))))))
    simpa only [List.append_assoc, List.append_nil] using hspans
  · intro e hmem
    obtain ⟨entry, -, rfl⟩ := List.mem_map.mp hmem
    exact spans_intEntry entry

/-- **What is parsed from a body**, for the opcodes with a collection. -/
theorem collected {opcode : UInt8} {k : Collection} (h : parseRecord opcode body = .ok r)
    (hk : r.collection = some k) : Collected opcode body k := by
  have hop := parse_opcode h
  have hsome : ∀ {o : UInt8}, (∃ k', r.collection = some k' ∧ Collected o body k') →
      Collected o body k := by
    rintro o ⟨k', hk', hc⟩
    rw [hk] at hk'
    cases hk'
    exact hc
  cases r with
  | channel c =>
    subst hop
    exact hsome (collected_channel h)
  | messageIndex i =>
    subst hop
    exact hsome (collected_messageIndex h)
  | chunkIndex i =>
    subst hop
    exact hsome (collected_chunkIndex h)
  | statistics s =>
    subst hop
    exact hsome (collected_statistics h)
  | metadata m =>
    subst hop
    exact hsome (collected_metadata h)
  | _ => cases hk

/-! ## Exactly the announced bytes -/

theorem Collection.Exact.announced {k : Collection} (h : k.Exact body) :
    ofLe ((body.drop k.before.length).take 4) = k.entries.flatten.length := by
  obtain ⟨read, extra, hperm, hlt, rfl⟩ := h
  rw [List.drop_left, List.append_assoc, List.take_left' (length_le ..), ofLe_le_of_lt hlt]
  exact hperm.flatten.length_eq

/-- **The entries of a body that is accepted are exactly the announced bytes** if and only if the
announced length ends an entry. -/
theorem counted_exactly_iff {opcode : UInt8} {k : Collection} (h : parseRecord opcode body = .ok r)
    (hk : r.collection = some k) : k.Exact body ↔ EndsEntry opcode body := by
  obtain ⟨⟨_, extra, ⟨n, read, hn, hperm, hstops, rfl⟩, hbody⟩, before, entry, hfields, hbefore,
    hentries⟩ := collected h hk
  have hsize : rowSize before body = k.before.length := by
    rw [hbody]
    exact hbefore _
  have hdrop : body.drop k.before.length = le 4 n ++ (read.flatten ++ (k.behind ++ extra)) := by
    rw [hbody, List.drop_left, List.append_assoc]
  have hannounced : ofLe ((body.drop k.before.length).take 4) = n := by
    rw [hdrop, List.take_left' (length_le ..), ofLe_le_of_lt (show n < 256 ^ 4 from hn)]
  have hrow := row_iff (fun e he => hentries e (hperm.mem_iff.mp he)) hstops (k.behind ++ extra)
  have hends : EndsEntry opcode body ↔ Row entry (read.flatten ++ (k.behind ++ extra)) n := by
    have hrest : body.drop (k.before.length + 4) = read.flatten ++ (k.behind ++ extra) := by
      rw [← List.drop_drop, hdrop, List.drop_left' (length_le ..)]
    constructor
    · rintro ⟨before', entry', hfields', hrow'⟩
      rw [hfields] at hfields'
      cases hfields'
      rwa [hsize, hannounced, hrest] at hrow'
    · intro hrow'
      refine ⟨before, entry, hfields, ?_⟩
      rwa [hsize, hannounced, hrest]
  rw [hends, hrow]
  constructor
  · intro hexact
    rw [← hannounced, hexact.announced]
    exact hperm.flatten.length_eq
  · intro hlen
    refine ⟨read, extra, hperm, by rwa [hlen], ?_⟩
    rw [hlen]
    exact hbody

/-- A message index with one entry. -/
theorem counted_exactly_entry :
    ((⟨[1, 0], [List.replicate 16 0], []⟩ : Collection).Exact
      ([1, 0] ++ le 4 16 ++ List.replicate 16 0) ↔
        EndsEntry op.MESSAGE_INDEX ([1, 0] ++ le 4 16 ++ List.replicate 16 0)) :=
  counted_exactly_iff (r := .messageIndex ⟨1, [⟨0, 0⟩]⟩) (by decide +kernel) (by decide +kernel)

/-- **A message index that announces one byte**, and of which sixteen are read. -/
theorem counted_exactly_fails : ¬ ∀ (opcode : UInt8) (body : Bytes) (r : Record) (k : Collection),
    parseRecord opcode body = .ok r → r.collection = some k → k.Exact body := by
  intro h
  have hexact := h op.MESSAGE_INDEX ([1, 0] ++ le 4 1 ++ List.replicate 16 0)
    (.messageIndex ⟨1, [⟨0, 0⟩]⟩) ⟨[1, 0], [List.replicate 16 0], []⟩ (by decide +kernel)
    (by decide +kernel)
  exact absurd hexact.announced (by decide +kernel)

end
end Mcap

import Mathlib.Algebra.BigOperators.Ring.List
import Mathlib.Algebra.Order.BigOperators.Group.List
import Mcap.Ros1Bag

/-! # The format of ROS1 bags

`BagHolds input evs`: the byte string is a sequence of well-formed records, and `evs` is what
it tells, the records in chunks included.  What the conversion makes of a byte string is what
it makes of its events (`processRecords_holds`): the parser of records and fields finds what has
been written.
-/
namespace Mcap

/-! ## Records as they are written -/

/-- A field: its length, its name and its value. -/
def bagField (f : String × Bytes) : Bytes :=
  le 4 ((utf8 f.1 ++ EQUALS :: f.2).length) ++ (utf8 f.1 ++ EQUALS :: f.2)

def bagFields (fs : List (String × Bytes)) : Bytes := fs.flatMap bagField

/-- A record: header and data with their lengths. -/
def bagRecord (header data : Bytes) : Bytes :=
  le 4 header.length ++ (header ++ (le 4 data.length ++ data))

/-- The value of each field; the last one of a name counts. -/
def fieldMap (fs : List (String × Bytes)) : HeaderFields := BTreeMap.insertAll ∅ fs

/-- Names have no `=`, and the fields fit a section. -/
structure FieldsFit (fs : List (String × Bytes)) : Prop where
  names : ∀ f ∈ fs, EQUALS ∉ utf8 f.1
  length : (bagFields fs).length < 2 ^ 32

/-! ## What a bag tells -/

/-- A connection. -/
structure BagConnection where
  conn : UInt32
  topic : String
  msgType : String
  md5sum : String
  definition : Bytes
  metadata : BTreeMap String String
deriving DecidableEq

/-- A message. -/
structure BagMessage where
  conn : UInt32
  secs : UInt32
  nsecs : UInt32
  data : Bytes
deriving DecidableEq

/-- The sizes of a record, the size of a chunk, a connection or a message. -/
inductive BagEvent
  | sizes (header data : Nat)
  | chunk (size : Nat)
  | connection (d : BagConnection)
  | message (m : BagMessage)

/-- The connections a bag tells of. -/
def bagConnections (evs : List BagEvent) : List BagConnection :=
  evs.filterMap fun
    | .connection d => some d
    | _ => none

/-- The messages a bag tells of. -/
def bagMessages (evs : List BagEvent) : List BagMessage :=
  evs.filterMap fun
    | .message m => some m
    | _ => none

/-- The fields in the data of a connection. -/
structure Describes (info : List (String × Bytes)) (c : BagConnection) : Prop where
  msgType : (fieldMap info)[KEY_TYPE]? = some (utf8 c.msgType)
  md5sum : (fieldMap info)[KEY_MD5SUM]? = some (utf8 c.md5sum)
  definition : (fieldMap info)[KEY_MESSAGE_DEFINITION]? = some c.definition
  metadata : ((fieldMap info).erase KEY_TYPE).erase KEY_MESSAGE_DEFINITION =
    c.metadata.map fun _ value => utf8 value

section
variable (κ : Type) [BagDecoders κ]

/-- The decoder gives these bytes and ends. -/
inductive Inflates : κ → Bytes → κ → Prop
  | done {k k'} : BagDecoders.read k = .ok ([], k') → Inflates k [] k'
  | piece {k k' k'' b piece out} : BagDecoders.read k = .ok (b :: piece, k') →
      Inflates k' out k'' → Inflates k (b :: piece ++ out) k''

/-- The data of a chunk decompresses to `inner`. -/
def Decompresses (compression : String) (data inner : Bytes) : Prop :=
  (compression = "none" ∧ inner = data) ∨
    (compression = "bz2" ∧ ∃ k, Inflates κ (BagDecoders.newBz2 data) inner k) ∨
    compression = "lz4" ∧ ∃ k k', BagDecoders.newLz4 data = .ok k ∧ Inflates κ k inner k' ∧
      BagDecoders.finishLz4 k' = .ok ()

/-- **A sequence of well-formed records**, and what it tells. -/
inductive BagHolds : Bytes → List BagEvent → Prop
  | nil : BagHolds [] []
  | other {fs data op rest evs} : FieldsFit fs → data.length < 2 ^ 32 →
      (fieldMap fs)[KEY_OP]? = some [op] →
      op ≠ OP_BAG_CONNECTION ∧ op ≠ OP_BAG_MESSAGE_DATA ∧ op ≠ OP_BAG_CHUNK →
      BagHolds rest evs →
      BagHolds (bagRecord (bagFields fs) data ++ rest)
        (.sizes (bagFields fs).length data.length :: evs)
  | connection {fs info c rest evs} : FieldsFit fs → FieldsFit info →
      (fieldMap fs)[KEY_OP]? = some [OP_BAG_CONNECTION] →
      (fieldMap fs)[KEY_CONN]? = some (u32 c.conn) →
      (fieldMap fs)[KEY_TOPIC]? = some (utf8 c.topic) → Describes info c → BagHolds rest evs →
      BagHolds (bagRecord (bagFields fs) (bagFields info) ++ rest)
        (.sizes (bagFields fs).length (bagFields info).length :: .connection c :: evs)
  | message {fs m rest evs} : FieldsFit fs → m.data.length < 2 ^ 32 →
      (fieldMap fs)[KEY_OP]? = some [OP_BAG_MESSAGE_DATA] →
      (fieldMap fs)[KEY_CONN]? = some (u32 m.conn) →
      (fieldMap fs)[KEY_TIME]? = some (u32 m.secs ++ u32 m.nsecs) → BagHolds rest evs →
      BagHolds (bagRecord (bagFields fs) m.data ++ rest)
        (.sizes (bagFields fs).length m.data.length :: .message m :: evs)
  | chunk {fs data compression inner evs' rest evs} : FieldsFit fs → data.length < 2 ^ 32 →
      (fieldMap fs)[KEY_OP]? = some [OP_BAG_CHUNK] →
      (fieldMap fs)[KEY_COMPRESSION]? = some (utf8 compression) → inner.length < 2 ^ 32 →
      (fieldMap fs)[KEY_SIZE]? = some (le 4 inner.length) → Decompresses κ compression data inner →
      BagHolds inner evs' → BagHolds rest evs →
      BagHolds (bagRecord (bagFields fs) data ++ rest)
        (.sizes (bagFields fs).length data.length :: .chunk inner.length :: (evs' ++ evs))

end

/-! ## Sizes -/

/-- What the records of a writer have of a connection fits. -/
structure BagConnection.Fits (d : BagConnection) : Prop where
  topic : StringFits d.topic
  msgType : StringFits d.msgType
  definition : d.definition.length < 2 ^ 32
  metadata : StringMapFits d.metadata

theorem mem_of_fieldMap {fs : List (String × Bytes)} {key : String} {value : Bytes}
    (h : (fieldMap fs)[key]? = some value) : (key, value) ∈ fs := by
  refine (BTreeMap.mem_of_getElem?_insertAll h).resolve_right fun hnone => ?_
  rw [Std.ExtTreeMap.getElem?_empty] at hnone
  cases hnone

theorem length_bagField (f : String × Bytes) :
    (bagField f).length = (utf8 f.1).length + f.2.length + 5 := by
  rw [bagField, List.length_append, length_le, List.length_append, List.length_cons]
  omega

variable {fs : List (String × Bytes)} {fields : HeaderFields} {key : String}

theorem sum_fields_le {es : List (String × Bytes)} (hnodup : es.Nodup) (h : es ⊆ fs) :
    (es.map fun e => (bagField e).length).sum ≤ (bagFields fs).length := by
  obtain ⟨l, hperm, hsub⟩ := List.subperm_of_subset hnodup h
  rw [bagFields, List.length_flatMap, ← (hperm.map _).sum_eq]
  exact (hsub.map _).sum_le_sum fun _ _ => Nat.zero_le _

theorem length_field_le {f : String × Bytes} (h : f ∈ fs) :
    (utf8 f.1).length + f.2.length + 5 ≤ (bagFields fs).length := by
  rw [← length_bagField]
  exact sum_fields_le (List.nodup_singleton f) (by simpa using h)

/-- **A connection fits** if its record is not too long. -/
theorem Describes.fits {info : List (String × Bytes)} {d : BagConnection} (h : Describes info d)
    (htopic : StringFits d.topic) (hlen : (bagFields info).length ≤ 2 ^ 30) : d.Fits := by
  have hfield : ∀ {key : String} {value : Bytes}, (fieldMap info)[key]? = some value →
      (utf8 key).length + value.length + 5 ≤ 2 ^ 30 :=
    fun hkey => (length_field_le (mem_of_fieldMap hkey)).trans hlen
  have hmem : ∀ e ∈ d.metadata.toList, (fieldMap info)[e.1]? = some (utf8 e.2) := by
    intro e he
    have hmap : (d.metadata.map fun _ value => utf8 value)[e.1]? = some (utf8 e.2) := by
      rw [Std.ExtTreeMap.getElem?_map, BTreeMap.mem_toList.mp he]
      rfl
    rw [← h.metadata, Std.ExtTreeMap.getElem?_erase, Std.ExtTreeMap.getElem?_erase] at hmap
    split at hmap
    · cases hmap
    · split at hmap
      · cases hmap
      · exact hmap
  refine ⟨htopic, ?_, ?_, fun e he => ?_, ?_⟩
  · have := hfield h.msgType
    unfold StringFits
    omega
  · have := hfield h.definition
    omega
  · have := hfield (hmem e he)
    unfold StringFits
    omega
  · -- an entry of the map is at most twice as long as its field
    have hnodup : (d.metadata.toList.map fun e => (e.1, utf8 e.2)).Nodup := by
      have htoList := Std.ExtTreeMap.toList_map (t := d.metadata) (f := fun _ value => utf8 value)
      rw [← htoList]
      exact BTreeMap.nodup_toList _
    have hsub : (d.metadata.toList.map fun e => (e.1, utf8 e.2)) ⊆ info := by
      intro f hf
      obtain ⟨e, he, rfl⟩ := List.mem_map.mp hf
      exact mem_of_fieldMap (hmem e he)
    have hsum := sum_fields_le hnodup hsub
    have hle : (d.metadata.toList.flatMap stringEntry).length ≤
        2 * ((d.metadata.toList.map fun e => (e.1, utf8 e.2)).map fun e => (bagField e).length).sum := by
      rw [List.length_flatMap, List.map_map, ← List.sum_map_mul_left]
      refine List.sum_le_sum fun e _ => ?_
      show (stringEntry e).length ≤ 2 * (bagField (e.1, utf8 e.2)).length
      rw [length_bagField, stringEntry, List.length_append, length_writeString, length_writeString]
      show _ ≤ 2 * ((utf8 e.1).length + (utf8 e.2).length + 5)
      omega
    omega

/-! ## Reading it -/

theorem readBagU32MaybeEof_le {n : Nat} (h : n < 2 ^ 32) (rest : Bytes) :
    readBagU32MaybeEof (le 4 n ++ rest) = .ok (some (n, rest)) := by
  have hlen : (le 4 n).length = 4 := length_le 4 n
  rw [readBagU32MaybeEof, if_neg (List.append_ne_nil_of_left_ne_nil (by rintro hnil; rw [hnil] at hlen; cases hlen) _),
    if_neg (by rw [List.length_append]; omega), List.take_left' hlen, List.drop_left' hlen,
    ofLe_le_of_lt (show n < 256 ^ 4 from h)]

theorem readExactly_append (bytes rest : Bytes) :
    readExactly bytes.length (bytes ++ rest) = .ok (bytes, rest) := by
  rw [readExactly, if_neg (by rw [List.length_append]; omega), List.take_left, List.drop_left]

theorem readBagU32_le {n : Nat} (h : n < 2 ^ 32) (rest : Bytes) :
    readBagU32 (le 4 n ++ rest) = .ok (n, rest) := by
  have hread := readExactly_append (le 4 n) rest
  rw [length_le] at hread
  rw [readBagU32, hread]
  show Except.ok (ofLe (le 4 n), rest) = _
  rw [ofLe_le_of_lt (show n < 256 ^ 4 from h)]

/-- The sizes of the sections are checked. -/
def ensureSizes (header data : Nat) : Except AnyError Unit := do
  ensureSection "record header length " header
  ensureSection "record data length " data

/-- **A record is read**, if its sections are not too long. -/
theorem readBagRecord_record {header data : Bytes} (hh : header.length < 2 ^ 32)
    (hd : data.length < 2 ^ 32) (rest : Bytes) :
    readBagRecord (bagRecord header data ++ rest) =
      (ensureSizes header.length data.length).map fun _ => some (⟨header, data⟩, rest) := by
  have hsplit : bagRecord header data ++ rest =
      le 4 header.length ++ (header ++ (le 4 data.length ++ (data ++ rest))) := by
    simp only [bagRecord, List.append_assoc]
  rw [hsplit, readBagRecord, readBagU32MaybeEof_le hh]
  simp only [withContext, ensureSizes, bind, Except.bind]
  rcases ensureSection "record header length " header.length with e | _
  · rfl
  · simp only [readExactly_append, readBagU32_le hd]
    rcases ensureSection "record data length " data.length with e | _
    · rfl
    · simp only
      rfl

theorem idxOf?_append_cons {α : Type} [BEq α] [LawfulBEq α] {x : α} {xs : List α} (h : x ∉ xs)
    (ys : List α) : (xs ++ x :: ys).idxOf? x = some xs.length := by
  induction xs with
  | nil => rw [List.nil_append, List.idxOf?_cons, if_pos BEq.rfl]; rfl
  | cons y xs ih =>
    rw [List.mem_cons, not_or] at h
    rw [List.cons_append, List.idxOf?_cons, if_neg (by rw [beq_iff_eq]; exact Ne.symm h.1), ih h.2]
    rfl

/-- **Fields are read**, one after the other. -/
theorem headerFieldsFrom_fields (hnames : ∀ f ∈ fs, EQUALS ∉ utf8 f.1)
    (hlen : (bagFields fs).length < 2 ^ 32) {fuel : Nat} (hfuel : (bagFields fs).length ≤ fuel)
    (offset : Nat) (out : HeaderFields) :
    headerFieldsFrom fuel offset (bagFields fs) out = .ok (BTreeMap.insertAll out fs) := by
  induction fs generalizing fuel offset out with
  | nil => cases fuel <;> rfl
  | cons f fs ih =>
    obtain ⟨hname, hnames⟩ := List.forall_mem_cons.mp hnames
    have hcons : bagFields (f :: fs) = le 4 (utf8 f.1 ++ EQUALS :: f.2).length ++
        ((utf8 f.1 ++ EQUALS :: f.2) ++ bagFields fs) := by
      rw [bagFields, List.flatMap_cons, bagField, List.append_assoc]
      rfl
    generalize hfield : utf8 f.1 ++ EQUALS :: f.2 = field at hcons
    have hsize : (le 4 field.length).length = 4 := length_le 4 _
    rw [hcons] at hlen hfuel ⊢
    rw [List.length_append, List.length_append, hsize] at hlen hfuel
    obtain ⟨fuel, rfl⟩ : ∃ m, fuel = m + 1 := ⟨fuel - 1, by omega⟩
    have hidx : field.idxOf? EQUALS = some (utf8 f.1).length := by
      rw [← hfield]
      exact idxOf?_append_cons hname f.2
    rw [headerFieldsFrom, if_neg (by
        intro hnil
        have := congrArg List.length hnil
        rw [List.length_append, hsize, List.length_nil] at this
        omega),
      if_neg (by rw [List.length_append]; omega)]
    simp only [List.take_left' hsize, List.drop_left' hsize,
      ofLe_le_of_lt (show field.length < 256 ^ 4 by omega)]
    rw [if_neg (by rw [List.length_append]; omega), List.take_left, List.drop_left, hidx]
    have hvalue : (utf8 f.1 ++ EQUALS :: f.2).drop ((utf8 f.1).length + 1) = f.2 := by
      rw [List.drop_append, List.drop_of_length_le (Nat.le_succ _), Nat.add_sub_cancel_left]
      rfl
    simp only [← hfield, List.take_left, hvalue, fromUTF8?_utf8]
    rw [ih hnames (by omega) (by omega)]
    rfl

theorem parseHeaderFields_fields (h : FieldsFit fs) :
    parseHeaderFields (bagFields fs) = .ok (fieldMap fs) :=
  headerFieldsFrom_fields h.names h.length le_rfl 0 ∅

theorem headerBytes_field {value : Bytes}
    (h : fields[key]? = some value) : headerBytes fields key = .ok value := by
  rw [headerBytes, h]
  rfl

theorem headerString_field {value : String}
    (h : fields[key]? = some (utf8 value)) : headerString fields key = .ok value := by
  rw [headerString, headerBytes_field h]
  show withContext _ (fromUtf8 (utf8 value)) = _
  rw [fromUtf8, fromUTF8?_utf8]
  rfl

theorem headerU8_field {value : UInt8}
    (h : fields[key]? = some [value]) : headerU8 fields key = .ok value := by
  rw [headerU8, headerInt, headerBytes_field h]
  show Except.ok (UInt8.ofNat (ofLe [value])) = _
  simp [ofLe]

theorem headerU32_field {n : Nat} (hn : n < 2 ^ 32)
    (h : fields[key]? = some (le 4 n)) : headerU32 fields key = .ok (.ofNat n) := by
  rw [headerU32, headerInt, headerBytes_field h]
  simp only [bind, Except.bind]
  rw [if_pos (length_le 4 n), ofLe_le_of_lt (show n < 256 ^ 4 from hn)]
  rfl

theorem requiredBytes_field {value : Bytes}
    (h : fields[key]? = some value) : requiredBytes fields key = .ok value := by
  rw [requiredBytes, h]
  rfl

theorem requiredString_field {value : String}
    (h : fields[key]? = some (utf8 value)) : requiredString fields key = .ok value := by
  rw [requiredString, requiredBytes_field h]
  show withContext _ (fromUtf8 (utf8 value)) = _
  rw [fromUtf8, fromUTF8?_utf8]
  rfl

theorem toStringMap_texts (metadata : BTreeMap String String) :
    toStringMap (metadata.map fun _ value => utf8 value) = .ok metadata := by
  have hfold : ∀ (l : List (String × String)) (out : BTreeMap String String),
      (l.map fun e => (e.1, utf8 e.2)).foldlM (fun out (e : String × Bytes) => do
        let value ←
          withContext ("invalid utf8 value for metadata field '" ++ e.1 ++ "'") (fromUtf8 e.2)
        pure (out.insert e.1 value)) out = (.ok (BTreeMap.insertAll out l) : Except AnyError _) := by
    intro l
    induction l with
    | nil => exact fun out => rfl
    | cons e l ih =>
      intro out
      rw [List.map_cons, List.foldlM_cons, fromUtf8, fromUTF8?_utf8]
      exact ih (out.insert e.1 e.2)
  rw [toStringMap, Std.ExtTreeMap.toList_map, hfold, BTreeMap.insertAll_toList]

section
variable {κ : Type} [BagDecoders κ]

theorem readLimited_inflates {k k' : κ} {bytes : Bytes} (h : Inflates κ k bytes k') (text : String)
    {room expected : Nat} {out : Bytes} (hexp : (out ++ bytes).length = expected)
    (hroom : bytes.length ≤ room) :
    readLimited expected text room out k = .ok (out ++ bytes, k') := by
  induction h generalizing room out with
  | done hread =>
    rw [readLimited.eq_def]
    simp only [hread]
    rw [List.append_nil] at hexp ⊢
    exact if_pos hexp
  | @piece k k₁ k' b piece rest hread _ ih =>
    simp only [List.length_append, List.length_cons] at hexp hroom
    obtain ⟨room, rfl⟩ : ∃ m, room = m + 1 := ⟨room - 1, by omega⟩
    rw [readLimited.eq_def]
    simp only [hread, List.length_cons]
    rw [if_pos (by omega), ih (by simp only [List.length_append, List.length_cons]; omega) (by omega),
      List.append_assoc]

theorem readLimited_all {k k' : κ} {bytes : Bytes} (h : Inflates κ k bytes k') (text : String) :
    readLimited bytes.length text bytes.length [] k = .ok (bytes, k') :=
  readLimited_inflates h text rfl le_rfl

/-- **A chunk of the declared size is decompressed.** -/
theorem decompressChunk_decompresses {compression : String} {data inner : Bytes}
    (h : Decompresses κ compression data inner) :
    decompressChunk κ compression data inner.length = .ok inner := by
  rcases h with ⟨rfl, rfl⟩ | ⟨rfl, k, hinf⟩ | ⟨rfl, k, k', hnew, hinf, hfin⟩
  · rw [decompressChunk, if_pos rfl, if_pos rfl]
  · rw [decompressChunk, if_neg (by decide), if_pos rfl, readLimited_all hinf]
    rfl
  · rw [decompressChunk, if_neg (by decide), if_neg (by decide), if_pos rfl, hnew]
    show (readLimited _ _ _ _ k >>= _) = _
    rw [readLimited_all hinf]
    simp only [Res.ok_bind, hfin]
    rfl

end

/-! ## What is made of it -/

/-- The time of a message, in nanoseconds. -/
def bagTime (secs nsecs : UInt32) : UInt64 := .ofNat (secs.toNat * 1000000000 + nsecs.toNat)

/-- The channel of a connection. -/
def BagConnection.channel (d : BagConnection) (channelId schemaId : UInt16) : Channel where
  id := channelId
  topic := d.topic
  schema := some { id := schemaId, name := d.msgType, encoding := "ros1msg", data := d.definition }
  messageEncoding := "ros1"
  metadata := d.metadata

/-- A message on its channel. -/
def BagMessage.onChannel (m : BagMessage) (channel : Channel) (sequence : UInt32) : Message where
  channel
  sequence
  logTime := bagTime m.secs m.nsecs
  publishTime := bagTime m.secs m.nsecs
  data := m.data

section
variable {σ : Type} [Encoders σ]

/-- What the conversion makes of an event. -/
def BagEvent.apply : BagEvent → Conversion σ → Res AnyError (Conversion σ)
  | .sizes header data, c => do
      Res.lift (ensureSizes header data)
      pure c
  | .chunk size, c => do
      Res.lift (ensureSection "chunk uncompressed size " size)
      pure c
  | .connection d, c => do
      let (schemaId, writer, state) ← schemaIdFor ⟨d.msgType, d.md5sum⟩ d.definition c
      let channelId ← Res.lift (connIdToChannelId d.conn)
      pure (writer, { state with
        connections := state.connections.insert d.conn (d.channel channelId schemaId) })
  | .message m, c =>
      match c.2.connections[m.conn]? with
      | none => .err (.msg ("message references unknown connection id " ++ toString m.conn.toNat))
      | some channel => do
          let ((), writer) ← calling "failed to write converted ROS1 message"
            (Writer.write (m.onChannel channel c.2.sequence) c.1)
          pure (writer, { c.2 with sequence := c.2.sequence + 1 })

/-- Events one after the other. -/
def applyAll : List BagEvent → Conversion σ → Res AnyError (Conversion σ)
  | [], c => .ok c
  | e :: evs, c => e.apply c >>= applyAll evs

theorem Res.bind_assoc {ε α β γ : Type} (x : Res ε α) (f : α → Res ε β) (g : β → Res ε γ) :
    (x >>= f) >>= g = x >>= fun a => f a >>= g := by
  rcases x with a | e | _ <;> rfl

theorem applyAll_append (evs evs' : List BagEvent) (c : Conversion σ) :
    applyAll (evs ++ evs') c = applyAll evs c >>= applyAll evs' := by
  induction evs generalizing c with
  | nil => rfl
  | cons e evs ih =>
    rw [applyAll, Res.bind_assoc]
    exact congrArg (e.apply c >>= ·) (funext ih)

theorem applyAll_singleton (e : BagEvent) (c : Conversion σ) : applyAll [e] c = e.apply c := by
  show e.apply c >>= Res.ok = e.apply c
  rcases e.apply c with c' | e' | _ <;> rfl

theorem processConnection_event {fields : HeaderFields} {info : List (String × Bytes)}
    {d : BagConnection} (hinfo : FieldsFit info) (hconn : fields[KEY_CONN]? = some (u32 d.conn))
    (htopic : fields[KEY_TOPIC]? = some (utf8 d.topic)) (hd : Describes info d) (c : Conversion σ) :
    processConnection fields (bagFields info) c = (BagEvent.connection d).apply c := by
  have hmd5 : ((fieldMap info).erase KEY_TYPE)[KEY_MD5SUM]? = some (utf8 d.md5sum) := by
    rw [Std.ExtTreeMap.getElem?_erase, if_neg (by decide), hd.md5sum]
  have hdef : ((fieldMap info).erase KEY_TYPE)[KEY_MESSAGE_DEFINITION]? = some d.definition := by
    rw [Std.ExtTreeMap.getElem?_erase, if_neg (by decide), hd.definition]
  simp only [processConnection, headerU32_field d.conn.toNat_lt hconn, headerString_field htopic,
    parseHeaderFields_fields hinfo, requiredString_field hd.msgType, requiredString_field hmd5,
    requiredBytes_field hdef, hd.metadata, toStringMap_texts, UInt32.ofNat_toNat, Res.lift,
    Res.ok_bind]
  rfl

theorem processMessage_event {fields : HeaderFields} {m : BagMessage}
    (hconn : fields[KEY_CONN]? = some (u32 m.conn))
    (htime : fields[KEY_TIME]? = some (u32 m.secs ++ u32 m.nsecs)) (c : Conversion σ) :
    processMessage fields m.data c = (BagEvent.message m).apply c := by
  obtain ⟨conn, secs, nsecs, data⟩ := m
  have hnanos : rosTimeToNanos (u32 secs ++ u32 nsecs) = bagTime secs nsecs := by
    rw [rosTimeToNanos, List.take_left' (length_u32 secs), List.drop_left' (length_u32 secs),
      List.take_of_length_le (le_of_eq (length_u32 nsecs)), u32, u32,
      ofLe_le_of_lt (show secs.toNat < 256 ^ 4 from secs.toNat_lt),
      ofLe_le_of_lt (show nsecs.toNat < 256 ^ 4 from nsecs.toNat_lt)]
    rfl
  have hlen : (u32 secs ++ u32 nsecs).length = 8 := by
    rw [List.length_append, length_u32, length_u32]
  simp only [processMessage, headerU32_field conn.toNat_lt hconn, headerBytes_field htime,
    UInt32.ofNat_toNat, Res.lift, Res.ok_bind]
  rw [if_neg (not_not_intro hlen), hnanos]
  rfl

variable (κ : Type) [BagDecoders κ]

theorem processRecords_record {header data rest : Bytes} (evs : List BagEvent)
    {evs' : List BagEvent} {N N' : Nat} (hh : header.length < 2 ^ 32) (hd : data.length < 2 ^ 32)
    (hone : ∀ fuel, N ≤ fuel → ∀ c : Conversion σ,
      processRecord κ (processRecords κ fuel) ⟨header, data⟩ c = some (applyAll evs c))
    (hrest : ∀ fuel, N' ≤ fuel → ∀ c : Conversion σ,
      processRecords κ fuel rest c = some (applyAll evs' c)) :
    ∀ fuel, N + N' + 1 ≤ fuel → ∀ c : Conversion σ,
      processRecords κ fuel (bagRecord header data ++ rest) c =
        some (applyAll (.sizes header.length data.length :: (evs ++ evs')) c) := by
  intro fuel hfuel c
  obtain ⟨fuel, rfl⟩ : ∃ m, fuel = m + 1 := ⟨fuel - 1, by omega⟩
  rw [processRecords, readBagRecord_record hh hd, applyAll, BagEvent.apply]
  rcases ensureSizes header.length data.length with e | _
  · rfl
  · show _ = some (applyAll (evs ++ evs') c)
    simp only [Except.map, hone fuel (by omega), applyAll_append]
    rcases applyAll evs c with c' | e | _
    · exact hrest fuel (by omega) c'
    · rfl
    · rfl

theorem processRecord_fields {fs : List (String × Bytes)} {op : UInt8} (hfs : FieldsFit fs)
    (hop : (fieldMap fs)[KEY_OP]? = some [op]) (data : Bytes)
    (inner : Bytes → Conversion σ → Option (Res AnyError (Conversion σ))) (c : Conversion σ) :
    processRecord κ inner ⟨bagFields fs, data⟩ c =
      if op = OP_BAG_CONNECTION then some (processConnection (fieldMap fs) data c)
      else if op = OP_BAG_MESSAGE_DATA then some (processMessage (fieldMap fs) data c)
      else if op = OP_BAG_CHUNK then processChunk κ inner (fieldMap fs) data c
      else some (.ok c) := by
  unfold processRecord
  simp only [parseHeaderFields_fields hfs, bind, Except.bind, headerU8_field hop]
  rfl

/-- **What the conversion makes of records is what it makes of their events.** -/
theorem processRecords_holds {input : Bytes} {evs : List BagEvent} (h : BagHolds κ input evs) :
    ∃ N, ∀ fuel, N ≤ fuel → ∀ c : Conversion σ,
      processRecords κ fuel input c = some (applyAll evs c) := by
  induction h with
  | nil =>
    refine ⟨1, fun fuel hfuel c => ?_⟩
    obtain ⟨fuel, rfl⟩ : ∃ m, fuel = m + 1 := ⟨fuel - 1, by omega⟩
    rfl
  | other hfs hdata hop hne _ ih =>
    obtain ⟨N', hrest⟩ := ih
    refine ⟨0 + N' + 1, processRecords_record κ [] hfs.length hdata (fun fuel _ c => ?_) hrest⟩
    rw [processRecord_fields κ hfs hop, if_neg hne.1, if_neg hne.2.1, if_neg hne.2.2]
    rfl
  | @connection fs info d rest evs hfs hinfo hop hconn htopic hd _ ih =>
    obtain ⟨N', hrest⟩ := ih
    refine ⟨0 + N' + 1, processRecords_record κ [.connection d] hfs.length hinfo.length
      (fun fuel _ c => ?_) hrest⟩
    rw [processRecord_fields κ hfs hop, if_pos rfl, processConnection_event hinfo hconn htopic hd,
      applyAll_singleton]
  | @message fs m rest evs hfs hdata hop hconn htime _ ih =>
    obtain ⟨N', hrest⟩ := ih
    refine ⟨0 + N' + 1, processRecords_record κ [.message m] hfs.length hdata (fun fuel _ c => ?_)
      hrest⟩
    rw [processRecord_fields κ hfs hop, if_neg (by decide), if_pos rfl,
      processMessage_event hconn htime, applyAll_singleton]
  | @chunk fs data compression inner evs' rest evs hfs hdata hop hcomp hinner hsize hdec _ _ ih ih' =>
    obtain ⟨N, hone⟩ := ih
    obtain ⟨N', hrest⟩ := ih'
    refine ⟨N + N' + 1, processRecords_record κ (.chunk inner.length :: evs') hfs.length hdata
      (fun fuel hfuel c => ?_) hrest⟩
    rw [processRecord_fields κ hfs hop, if_neg (by decide), if_neg (by decide), if_pos rfl,
      processChunk, headerString_field hcomp, headerU32_field hinner hsize, applyAll, BagEvent.apply]
    simp only [Res.lift, Res.ok_bind, UInt32.toNat_ofNat_of_lt' hinner]
    rcases ensureSection "chunk uncompressed size " inner.length with e | _
    · rfl
    · simp only [Res.ok_bind, decompressChunk_decompresses hdec]
      exact hone fuel hfuel c

end
end Mcap

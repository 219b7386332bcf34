import Mcap.TsBuilder
import Mcap.TsShift

/-! # What the TypeScript library writes, it reads

A record that the library writes is parsed as it was, if its numbers and lengths fit in their fields
(`TypedMcapRecord.Fits`) and a `TextDecoder` gives its strings back (`Decodes`), which it does but for
a byte order mark at the start.

`Recovers` says that a field is read where it stands, and `Completes` that the rest of a record is, from
behind some bytes on.  `parseRecord_bytes` is what comes of the fields of a record.

The number of schemas and that of channels wrap in the statistics, whatever they are
(`Statistics.wrapped`).
-/
namespace Mcap
namespace Ts

open Reader

/-! ## Fields -/

/-- A `TextDecoder` drops a byte order mark. -/
def NoMark (s : String) : Prop := s.toList.head? ≠ some (Char.ofNat 0xFEFF)

/-- **What a `TextDecoder` does** with the bytes of a string. -/
def Decodes (decode : Bytes → String) : Prop := ∀ s, NoMark s → decode (utf8 s) = s

/-- A string that is read back. -/
structure StringFits (s : String) : Prop where
  size : (utf8 s).length < 2 ^ 32
  noMark : NoMark s

theorem stringFits_empty : StringFits "" := ⟨by decide, by unfold NoMark; decide⟩

/-- **A field that is read back**: `p` reads `a` off the bytes `enc`, wherever they stand. -/
def Recovers {α : Type} (p : Read α) (enc : Bytes) (a : α) : Prop :=
  ∀ front back : Bytes, p ⟨front ++ (enc ++ back), front.length⟩ =
    .ok (a, ⟨front ++ (enc ++ back), front.length + enc.length⟩)

/-- **The rest of a record**, behind some bytes. -/
def Completes {α : Type} (front : Bytes) (p : Read α) (enc : Bytes) (a : α) : Prop :=
  ∃ r, p ⟨front ++ enc, front.length⟩ = .ok (a, r)

section
variable {α β : Type} {p : Read α} {front enc enc' : Bytes} {a : α} {b : β}

theorem Recovers.pure (a : α) : Recovers (Pure.pure a) [] a := fun _ _ => rfl

theorem Recovers.bind {f : α → Read β} (h : Recovers p enc a) (hf : Recovers (f a) enc' b) :
    Recovers (p >>= f) (enc ++ enc') b := by
  intro front back
  have hmore := hf (front ++ enc) back
  rw [read_bind, List.append_assoc enc, h front (enc' ++ back)]
  show f a ⟨front ++ (enc ++ (enc' ++ back)), front.length + enc.length⟩ = _
  rw [List.append_assoc, List.length_append] at hmore
  rw [hmore, List.length_append, Nat.add_assoc]

theorem Recovers.bind_pure (f : α → β) (h : Recovers p enc a) :
    Recovers (p >>= fun x => Pure.pure (f x)) enc (f a) := by
  have hbind : Recovers (p >>= fun x => Pure.pure (f x)) (enc ++ []) (f a) :=
    h.bind (Recovers.pure (f a))
  rwa [List.append_nil] at hbind

theorem Recovers.completes {f : α → Read β} (h : Recovers p enc a)
    (hf : Completes (front ++ enc) (f a) enc' b) : Completes front (p >>= f) (enc ++ enc') b := by
  obtain ⟨r, hr⟩ := hf
  refine ⟨r, ?_⟩
  rw [read_bind, h front enc']
  rw [List.append_assoc, List.length_append] at hr
  exact hr

theorem Completes.get {f : Reader → Read β} (h : Completes front (f ⟨front ++ enc, front.length⟩) enc b) :
    Completes front (MonadState.get >>= f) enc b := h

theorem Recovers.last (h : Recovers p enc a) (offset : Nat) (f : α → β) :
    Completes front (p >>= fun x => setOffset offset >>= fun _ => Pure.pure (f x)) enc (f a) := by
  have hend : Completes (front ++ enc) (setOffset offset >>= fun _ => Pure.pure (f a)) [] (f a) :=
    ⟨_, rfl⟩
  have hbind := h.completes (f := fun x => setOffset offset >>= fun _ => Pure.pure (f x)) hend
  rwa [List.append_nil] at hbind

end

theorem recovers_uint {size n : Nat} (h : n < 256 ^ size) : Recovers (uint size) (le size n) n := by
  intro front back
  rw [uint_at front (le size n) back (length_le size n), ofLe_le_of_lt h, length_le]

theorem recovers_uint8 {n : Nat} (h : n < 2 ^ 8) : Recovers uint8 (le 1 n) n := recovers_uint h
theorem recovers_uint16 {n : Nat} (h : n < 2 ^ 16) : Recovers uint16 (le 2 n) n := recovers_uint h
theorem recovers_uint32 {n : Nat} (h : n < 2 ^ 32) : Recovers uint32 (le 4 n) n := recovers_uint h
theorem recovers_uint64 {n : Nat} (h : n < 2 ^ 64) : Recovers uint64 (le 8 n) n := recovers_uint h

theorem recovers_u8Array (data : Bytes) : Recovers (u8Array data.length) data data := by
  intro front back
  unfold u8Array
  dsimp only
  rw [List.drop_left, Int.toNat_natCast, List.take_left, ← Nat.cast_add, Int.toNat_natCast]

section
variable {decode : Bytes → String} (hdecode : Decodes decode)
include hdecode

theorem recovers_string {s : String} (h : StringFits s) : Recovers (string decode) (stringBytes s) s := by
  intro front back
  have hlength := recovers_uint32 h.size front (utf8 s ++ back)
  unfold string stringBytes
  rw [read_bind, List.append_assoc, hlength]
  show (if (utf8 s).length = 0 then _ else _ : Read String) _ = _
  by_cases hnil : (utf8 s).length = 0
  · have hs : s = "" := by
      have hbytes : utf8 s = utf8 "" := List.eq_nil_of_length_eq_zero hnil
      have hback := fromUTF8?_utf8 s
      rw [hbytes, fromUTF8?_utf8] at hback
      exact (Option.some.inj hback).symm
    subst hs
    rw [if_pos hnil]
    show Except.ok (_, (⟨_, front.length + _⟩ : Reader)) = _
    rw [hnil]
    rfl
  · rw [if_neg hnil]
    have hdata := recovers_u8Array (utf8 s) (front ++ le 4 (utf8 s).length) back
    rw [List.append_assoc, List.length_append] at hdata
    show (if (Reader.mk _ _).bytesRemaining < (utf8 s).length then _ else _ : Read String) _ = _
    rw [if_neg (by
      unfold bytesRemaining
      simp only [List.length_append]
      omega), read_bind, hdata]
    show Except.ok (decode (utf8 s), _) = _
    rw [hdecode s h.noMark, List.length_append, Nat.add_assoc]

end

/-! ## Entries -/

section
variable {σ γ : Type} {step : σ → Read σ} {next : σ → γ → σ}

/-- **The turns of a loop over entries.** -/
theorem whileBefore_entries (enc : γ → Bytes) (xs : List γ) (s : σ)
    (hstep : ∀ before x after, xs = before ++ x :: after →
      Recovers (step (before.foldl next s)) (enc x) (next (before.foldl next s) x) ∧ enc x ≠ [])
    {turns : Nat} (front back : Bytes) (hturns : xs.length < turns) :
    whileBefore (front.length + (xs.flatMap enc).length) step turns s
        ⟨front ++ (xs.flatMap enc ++ back), front.length⟩ =
      .ok (xs.foldl next s,
        ⟨front ++ (xs.flatMap enc ++ back), front.length + (xs.flatMap enc).length⟩) := by
  induction xs generalizing turns s front with
  | nil =>
    obtain ⟨turns, rfl⟩ := Nat.exists_eq_succ_of_ne_zero (Nat.ne_zero_of_lt hturns)
    unfold whileBefore
    exact if_neg (Nat.lt_irrefl _)
  | cons x xs ih =>
    obtain ⟨turns, rfl⟩ := Nat.exists_eq_succ_of_ne_zero (Nat.ne_zero_of_lt hturns)
    obtain ⟨hrecovers, hne⟩ := hstep [] x xs rfl
    have hpos := List.length_pos_iff.mpr hne
    have hmore := ih (next s x) (fun before y after heq => hstep (x :: before) y after (by rw [heq]; rfl))
      (front ++ enc x) (Nat.lt_of_succ_lt_succ hturns)
    rw [List.append_assoc, List.length_append, Nat.add_assoc, ← List.append_assoc (enc x),
      ← List.length_append] at hmore
    rw [List.flatMap_cons]
    unfold whileBefore
    rw [if_pos (by simp only [List.length_append]; omega), read_bind]
    have hfirst := hrecovers front (xs.flatMap enc ++ back)
    rw [List.append_assoc, List.foldl_nil] at *
    rw [hfirst]
    exact hmore

/-- The loop of `keyValuePairs` and of `map`, behind the length of the entries. -/
def countedLoop (step : σ → Read σ) (s : σ) (exceeds : Nat → TsError) (greater : Nat → Nat → TsError)
    (wrap : TsError → TsError) : Read σ := do
  let length ← uint32
  let r ← get
  if r.view.length < r.offset + length then throw (exceeds length)
  else do
    let endOffset := r.offset + length
    let result ← rethrow wrap (whileBefore endOffset step (length + 1) s)
    let offset := (← get).offset
    if offset ≠ endOffset then throw (greater (offset - endOffset + length) length)
    else pure result

/-- **Entries behind their length** are read back, if each of them is. -/
theorem recovers_countedLoop (step : σ → Read σ) (next : σ → γ → σ) (enc : γ → Bytes) (xs : List γ)
    (s : σ) (exceeds : Nat → TsError) (greater : Nat → Nat → TsError) (wrap : TsError → TsError)
    (hsize : (xs.flatMap enc).length < 2 ^ 32)
    (hstep : ∀ before x after, xs = before ++ x :: after →
      Recovers (step (before.foldl next s)) (enc x) (next (before.foldl next s) x) ∧ enc x ≠ []) :
    Recovers (countedLoop step s exceeds greater wrap)
      (le 4 (xs.flatMap enc).length ++ xs.flatMap enc) (xs.foldl next s) := by
  intro front back
  have hcount : xs.length ≤ (xs.flatMap enc).length := length_le_flatMap fun x hx => by
    obtain ⟨before, after, heq⟩ := List.append_of_mem hx
    exact (hstep before x after heq).2
  have hloop := whileBefore_entries enc xs s hstep
    (front ++ le 4 (xs.flatMap enc).length) back (Nat.lt_succ_of_le hcount)
  have hlength := recovers_uint32 hsize front (xs.flatMap enc ++ back)
  generalize xs.flatMap enc = entries at hloop hlength hsize ⊢
  rw [List.append_assoc, List.length_append, length_le] at hloop ⊢
  rw [length_le] at hlength
  obtain ⟨view, hview⟩ : ∃ view, view = front ++ (le 4 entries.length ++ (entries ++ back)) := ⟨_, rfl⟩
  rw [← hview] at hloop hlength
  rw [← hview]
  have hwithin : front.length + 4 + entries.length ≤ view.length := by
    rw [hview]
    simp only [List.length_append, length_le]
    omega
  unfold countedLoop
  rw [read_bind, hlength]
  show (if view.length < front.length + 4 + entries.length then _ else _ : Read σ) _ = _
  rw [if_neg (Nat.not_lt.mpr hwithin), read_bind]
  unfold rethrow
  rw [hloop]
  show (if front.length + 4 + entries.length ≠ front.length + 4 + entries.length then _ else _ : Read σ)
    _ = _
  rw [if_neg (not_not.mpr rfl)]
  exact congrArg (fun offset => Except.ok (_, (⟨view, offset⟩ : Reader))) (Nat.add_assoc _ _ _)

end

section
variable {K V : Type} {readKey : Read K} {readValue : Read V} {key : K → Bytes} {value : V → Bytes}
  {items : List (K × V)}

/-- The bytes of an entry. -/
def entryBytes (key : K → Bytes) (value : V → Bytes) (e : K × V) : Bytes := key e.1 ++ value e.2

/-- Keys and values that are read back. -/
def EntriesRecover (readKey : Read K) (readValue : Read V) (key : K → Bytes) (value : V → Bytes)
    (items : List (K × V)) : Prop :=
  ∀ e ∈ items, Recovers readKey (key e.1) e.1 ∧ Recovers readValue (value e.2) e.2 ∧ key e.1 ≠ []

/-- **A loop over entries**, behind their length. -/
theorem recovers_entries {σ : Type} (step : σ → Read σ) (next : σ → K × V → σ) (s : σ)
    (exceeds : Nat → TsError) (greater : Nat → Nat → TsError) (wrap : TsError → TsError)
    (h : EntriesRecover readKey readValue key value items)
    (hsize : (items.flatMap (entryBytes key value)).length < 2 ^ 32)
    (hstep : ∀ before e after, items = before ++ e :: after →
      Recovers (step (before.foldl next s)) (entryBytes key value e) (next (before.foldl next s) e)) :
    Recovers (countedLoop step s exceeds greater wrap)
      (tupleBytes key value items) (items.foldl next s) :=
  recovers_countedLoop step next (entryBytes key value) items s exceeds greater wrap hsize
    fun before e after heq => ⟨hstep before e after heq, fun hnil =>
      (h e (heq ▸ List.mem_append_right _ List.mem_cons_self)).2.2 (List.append_eq_nil_iff.mp hnil).1⟩

theorem recovers_keyValuePairs (h : EntriesRecover readKey readValue key value items)
    (hsize : (items.flatMap (entryBytes key value)).length < 2 ^ 32) :
    Recovers (keyValuePairs readKey readValue) (tupleBytes key value items) items := by
  have hfold : ∀ l s : List (K × V), l.foldl (fun result e => result ++ [e]) s = s ++ l := by
    intro l
    induction l with
    | nil => exact fun s => (List.append_nil s).symm
    | cons e l ih =>
      intro s
      rw [List.foldl_cons, ih, List.append_assoc]
      rfl
  have hentries := recovers_entries (pairStep readKey readValue) (fun result e => result ++ [e]) []
    .pairsExceed .pairsGreater .readingPairs h hsize fun before e after heq =>
      have he := h e (heq ▸ List.mem_append_right _ List.mem_cons_self)
      he.1.bind (he.2.1.bind_pure _)
  rw [hfold, List.nil_append] at hentries
  exact hentries

variable [DecidableEq K]

theorem keys_setAll_subset {l : List (K × V)} {d : Dict K V} {k : K} (h : k ∈ (d.setAll l).keys) :
    k ∈ d.keys ∨ k ∈ l.map Prod.fst := by
  induction l generalizing d with
  | nil => exact .inl h
  | cons e l ih =>
    rcases ih h with hmem | hmem
    · rcases Dict.mem_keys_set.mp hmem with hmem | rfl
      · exact .inl hmem
      · exact .inr List.mem_cons_self
    · exact .inr (List.mem_cons_of_mem _ hmem)

theorem recovers_map {d : Dict K V} (h : EntriesRecover readKey readValue key value d.items)
    (hsize : (d.items.flatMap (entryBytes key value)).length < 2 ^ 32) :
    Recovers (map readKey readValue) (tupleBytes key value d.items) d := by
  have hentries := recovers_entries (mapStep readKey readValue)
    (fun (result : Dict K V) e => result.set e.1 e.2) ∅ .mapExceeds .mapGreater .readingMap h hsize fun before e after heq => by
      have he := h e (heq ▸ List.mem_append_right _ List.mem_cons_self)
      refine he.1.bind (?_ : Recovers _ (value e.2) _)
      have hfresh : ((before.foldl (fun (result : Dict K V) e => result.set e.1 e.2) ∅).get? e.1).isSome =
          false := by
        have hnodup := d.nodup
        rw [heq, List.map_append, List.map_cons] at hnodup
        rw [Option.isSome_eq_false_iff, Option.isNone_iff_eq_none]
        refine Dict.get?_eq_none.mpr fun hmem => ?_
        rcases keys_setAll_subset (d := ∅) (l := before) hmem with hmem | hmem
        · cases hmem
        · exact (List.nodup_append.mp hnodup).2.2 _ hmem _ List.mem_cons_self rfl
      have hstep : Recovers (readValue >>= fun v => pure
          ((before.foldl (fun (result : Dict K V) e => result.set e.1 e.2) ∅).set e.1 v)) (value e.2)
          ((before.foldl (fun (result : Dict K V) e => result.set e.1 e.2) ∅).set e.1 e.2) :=
        he.2.1.bind_pure _
      intro front back
      have hrun := hstep front back
      rw [read_bind] at hrun ⊢
      rw [he.2.1 front back] at hrun ⊢
      show (if _ = true then _ else _ : Read _) _ = _
      rw [hfresh, if_neg Bool.false_ne_true]
      exact hrun
  have hfold : d.items.foldl (fun (result : Dict K V) e => result.set e.1 e.2) ∅ = d :=
    Dict.ofList_items d
  rw [hfold] at hentries
  exact hentries

end

/-! ## Records -/

/-- A map of strings that is read back. -/
structure StringMapFits (m : Dict String String) : Prop where
  entries : ∀ e ∈ m.items, StringFits e.1 ∧ StringFits e.2
  size : (m.items.flatMap (entryBytes stringBytes stringBytes)).length < 2 ^ 32

/-- A map of numbers that is read back; its keys have 16 bits and its values 64. -/
structure NumberMapFits (m : Dict Nat Nat) : Prop where
  entries : ∀ e ∈ m.items, e.1 < 2 ^ 16 ∧ e.2 < 2 ^ 64
  size : m.items.length * 10 < 2 ^ 32

namespace TypedMcapRecord

/-- **Numbers and lengths that fit in their fields**, and strings that are read back. -/
def Fits : TypedMcapRecord → Prop
  | .header r => StringFits r.profile ∧ StringFits r.library
  | .footer r => r.summaryStart < 2 ^ 64 ∧ r.summaryOffsetStart < 2 ^ 64 ∧ r.summaryCrc < 2 ^ 32
  | .schema r => r.id < 2 ^ 16 ∧ StringFits r.name ∧ StringFits r.encoding ∧ r.data.length < 2 ^ 32
  | .channel r => r.id < 2 ^ 16 ∧ r.schemaId < 2 ^ 16 ∧ StringFits r.topic ∧
      StringFits r.messageEncoding ∧ StringMapFits r.metadata
  | .message r => r.channelId < 2 ^ 16 ∧ r.sequence < 2 ^ 32 ∧ r.logTime < 2 ^ 64 ∧
      r.publishTime < 2 ^ 64
  | .chunk r => r.messageStartTime < 2 ^ 64 ∧ r.messageEndTime < 2 ^ 64 ∧
      r.uncompressedSize < 2 ^ 64 ∧ r.uncompressedCrc < 2 ^ 32 ∧ StringFits r.compression
  | .messageIndex r => r.channelId < 2 ^ 16 ∧ (∀ e ∈ r.records, e.1 < 2 ^ 64 ∧ e.2 < 2 ^ 64) ∧
      r.records.length * 16 < 2 ^ 32
  | .chunkIndex r => r.messageStartTime < 2 ^ 64 ∧ r.messageEndTime < 2 ^ 64 ∧
      r.chunkStartOffset < 2 ^ 64 ∧ r.chunkLength < 2 ^ 64 ∧ NumberMapFits r.messageIndexOffsets ∧
      r.messageIndexLength < 2 ^ 64 ∧ StringFits r.compression ∧ r.compressedSize < 2 ^ 64 ∧
      r.uncompressedSize < 2 ^ 64
  | .attachment r => r.logTime < 2 ^ 64 ∧ r.createTime < 2 ^ 64 ∧ StringFits r.name ∧
      StringFits r.mediaType
  | .attachmentIndex r => r.offset < 2 ^ 64 ∧ r.length < 2 ^ 64 ∧ r.logTime < 2 ^ 64 ∧
      r.createTime < 2 ^ 64 ∧ r.dataSize < 2 ^ 64 ∧ StringFits r.name ∧ StringFits r.mediaType
  | .statistics r => r.messageCount < 2 ^ 64 ∧ r.schemaCount < 2 ^ 16 ∧ r.channelCount < 2 ^ 32 ∧
      r.attachmentCount < 2 ^ 32 ∧ r.metadataCount < 2 ^ 32 ∧ r.chunkCount < 2 ^ 32 ∧
      r.messageStartTime < 2 ^ 64 ∧ r.messageEndTime < 2 ^ 64 ∧ NumberMapFits r.channelMessageCounts
  | .metadata r => StringFits r.name ∧ StringMapFits r.metadata
  | .metadataIndex r => r.offset < 2 ^ 64 ∧ r.length < 2 ^ 64 ∧ StringFits r.name
  | .summaryOffset r => r.groupOpcode < 2 ^ 8 ∧ r.groupStart < 2 ^ 64 ∧ r.groupLength < 2 ^ 64
  | .dataEnd r => r.dataSectionCrc < 2 ^ 32
  | .unknown _ => False

end TypedMcapRecord

theorem length_flatMap_of_length {α : Type} {enc : α → Bytes} {n : Nat} (h : ∀ a, (enc a).length = n)
    (l : List α) : (l.flatMap enc).length = l.length * n := by
  induction l with
  | nil => exact (Nat.zero_mul n).symm
  | cons a l ih => rw [List.flatMap_cons, List.length_append, ih, h, List.length_cons, Nat.succ_mul,
      Nat.add_comm]

theorem tupleBytes_numbers (items : List (Nat × Nat)) :
    tupleBytes (le 2) (le 8) items =
      le 4 (items.length * 10) ++ items.flatMap fun e => le 2 e.1 ++ le 8 e.2 := by
  unfold tupleBytes
  rw [length_flatMap_of_length (fun e => by rw [List.length_append, length_le, length_le])]

theorem recovers_numbers {m : Dict Nat Nat} (h : NumberMapFits m) :
    Recovers (map uint16 uint64) (tupleBytes (le 2) (le 8) m.items) m := by
  have hlength : (m.items.flatMap (entryBytes (le 2) (le 8))).length = m.items.length * 10 :=
    length_flatMap_of_length (fun e => by unfold entryBytes; rw [List.length_append, length_le, length_le]) _
  exact recovers_map (fun e he => ⟨recovers_uint16 (h.entries e he).1,
    recovers_uint64 (h.entries e he).2, List.ne_nil_of_length_pos (by rw [length_le]; omega)⟩)
      (hlength ▸ h.size)

theorem recovers_pairs {l : List (Nat × Nat)} (h : ∀ e ∈ l, e.1 < 2 ^ 64 ∧ e.2 < 2 ^ 64)
    (hsize : l.length * 16 < 2 ^ 32) :
    Recovers (keyValuePairs uint64 uint64) (le 4 (l.length * 16) ++
      l.flatMap fun e => le 8 e.1 ++ le 8 e.2) l := by
  have hlength : (l.flatMap (entryBytes (le 8) (le 8))).length = l.length * 16 :=
    length_flatMap_of_length (fun e => by unfold entryBytes; rw [List.length_append, length_le, length_le]) _
  have hpairs : Recovers (keyValuePairs uint64 uint64) (tupleBytes (le 8) (le 8) l) l :=
    recovers_keyValuePairs (fun e he => ⟨recovers_uint64 (h e he).1, recovers_uint64 (h e he).2,
      List.ne_nil_of_length_pos (by rw [length_le]; omega)⟩) (hlength ▸ hsize)
  rw [← hlength]
  exact hpairs

section
variable {decode : Bytes → String} (hdecode : Decodes decode)
include hdecode

theorem recovers_strings {m : Dict String String} (h : StringMapFits m) :
    Recovers (map (string decode) (string decode)) (tupleBytes stringBytes stringBytes m.items) m :=
  recovers_map (fun e he => ⟨recovers_string hdecode (h.entries e he).1,
    recovers_string hdecode (h.entries e he).2, List.ne_nil_of_length_pos (by
      unfold stringBytes
      rw [List.length_append, length_le]
      omega)⟩) h.size

theorem completes_schema {r : Schema} (h : (TypedMcapRecord.schema r).Fits) (front : Bytes) :
    Completes front (parseSchema decode (TypedMcapRecord.schema r).body.length)
      (TypedMcapRecord.schema r).body (.schema r) := by
  refine .get ((recovers_uint16 h.1).completes <| (recovers_string hdecode h.2.1).completes <|
    (recovers_string hdecode h.2.2.1).completes <| (recovers_uint32 h.2.2.2).completes <| .get ?_)
  dsimp only
  rw [if_neg (by
    unfold TypedMcapRecord.body
    simp only [List.length_append]
    omega)]
  exact (recovers_u8Array r.data).last _ fun data => TypedMcapRecord.schema { r with data }

theorem completes_chunk {r : Chunk} (h : (TypedMcapRecord.chunk r).Fits) (front : Bytes)
    (hsize : r.records.length < 2 ^ 64) :
    Completes front (parseChunk decode (TypedMcapRecord.chunk r).body.length)
      (TypedMcapRecord.chunk r).body (.chunk r) := by
  refine .get ((recovers_uint64 h.1).completes <| (recovers_uint64 h.2.1).completes <|
    (recovers_uint64 h.2.2.1).completes <| (recovers_uint32 h.2.2.2.1).completes <|
    (recovers_string hdecode h.2.2.2.2).completes <| (recovers_uint64 hsize).completes <| .get ?_)
  dsimp only
  rw [if_neg (by
    unfold TypedMcapRecord.body
    simp only [List.length_append]
    omega)]
  exact (recovers_u8Array r.records).last _ fun records => TypedMcapRecord.chunk { r with records }

omit hdecode in
theorem checkAttachment_ok {crc : Nat} {fields : Bytes} (hcrc : crc = (crc32 fields).toNat)
    (validateCrcs : Bool) (front rest : Bytes) (offset : Nat) :
    ∃ r, checkAttachment validateCrcs front.length fields.length crc
      ⟨front ++ fields ++ le 4 crc ++ rest, offset⟩ = .ok ((), r) := by
  unfold checkAttachment
  split
  · have hdata := recovers_u8Array fields front (le 4 crc ++ rest)
    rw [← List.append_assoc, ← List.append_assoc] at hdata
    refine ⟨⟨front ++ fields ++ le 4 crc ++ rest, front.length + fields.length + 4⟩, ?_⟩
    rw [read_bind]
    change (_ >>= _ : Read Unit) (⟨_, front.length⟩ : Reader) = _
    rw [read_bind, hdata]
    show (if (crc32 fields).toNat ≠ crc then _ else _ : Read Unit) _ = _
    rw [if_neg (not_not.mpr hcrc.symm)]
    rfl
  · exact ⟨_, rfl⟩

theorem completes_attachment {r : Attachment} (h : (TypedMcapRecord.attachment r).Fits)
    (validateCrcs : Bool) (front : Bytes)
    (hsize : (front ++ (TypedMcapRecord.attachment r).body).length ≤ MAX_SAFE_INTEGER) :
    Completes front (parseAttachment decode (TypedMcapRecord.attachment r).body.length validateCrcs)
      (TypedMcapRecord.attachment r).body (.attachment r) := by
  have hdata : r.data.length < 2 ^ 64 := by
    unfold TypedMcapRecord.body TypedMcapRecord.attachmentFields MAX_SAFE_INTEGER at hsize
    simp only [List.length_append, length_le] at hsize
    omega
  obtain ⟨crc, hcrc⟩ : ∃ crc, crc = (crc32 (TypedMcapRecord.attachmentFields r)).toNat := ⟨_, rfl⟩
  have hbody : (TypedMcapRecord.attachment r).body = TypedMcapRecord.attachmentFields r ++ le 4 crc := by
    rw [hcrc]
    rfl
  have hlength := congrArg List.length hbody
  have hfields := hbody
  unfold TypedMcapRecord.attachmentFields at hlength hfields
  simp only [List.length_append, length_le] at hlength hsize
  simp only [List.append_assoc] at hfields
  generalize hn : (TypedMcapRecord.attachment r).body.length = n at hlength hsize ⊢
  rw [hfields]
  refine .get ((recovers_uint64 h.1).completes <| (recovers_uint64 h.2.1).completes <|
    (recovers_string hdecode h.2.2.1).completes <| (recovers_string hdecode h.2.2.2).completes <|
    (recovers_uint64 hdata).completes <| .get ?_)
  dsimp only
  rw [if_neg (by simp only [List.length_append, length_le]; omega),
    if_neg (by simp only [List.length_append, length_le]; omega)]
  have hchecked : Recovers uint32 (le 4 crc) crc :=
    recovers_uint32 (by rw [hcrc]; exact (crc32 _).toNat_lt)
  rw [← List.append_nil (le 4 crc)]
  refine (recovers_u8Array r.data).completes (.get (hchecked.completes ?_))
  have hcovered : front ++ le 8 r.logTime ++ le 8 r.createTime ++ stringBytes r.name ++
      stringBytes r.mediaType ++ le 8 r.data.length ++ r.data =
        front ++ TypedMcapRecord.attachmentFields r := by
    unfold TypedMcapRecord.attachmentFields
    simp only [List.append_assoc]
  dsimp only
  rw [hcovered, List.length_append, Nat.add_sub_cancel_left]
  obtain ⟨reader, hreader⟩ := checkAttachment_ok hcrc validateCrcs front []
    (front ++ TypedMcapRecord.attachmentFields r ++ le 4 crc).length
  refine ⟨⟨reader.view, front.length + n⟩, ?_⟩
  rw [read_bind, hreader]
  rfl

omit hdecode in
theorem completes_message (r : Message) (h : (TypedMcapRecord.message r).Fits) (front : Bytes) :
    Completes front (parseMessage (TypedMcapRecord.message r).body.length)
      (TypedMcapRecord.message r).body (.message r) := by
  refine (recovers_uint16 h.1).completes <| (recovers_uint32 h.2.1).completes <|
    (recovers_uint64 h.2.2.1).completes <| (recovers_uint64 h.2.2.2).completes ?_
  have hlength : ((TypedMcapRecord.message r).body.length : Int) - (2 + 4 + 8 + 8) = r.data.length := by
    unfold TypedMcapRecord.body
    simp only [List.length_append, length_le]
    omega
  rw [hlength]
  have hdata := (recovers_u8Array r.data).bind_pure fun data => TypedMcapRecord.message { r with data }
  have hrun := hdata (front ++ le 2 r.channelId ++ le 4 r.sequence ++ le 8 r.logTime ++
    le 8 r.publishTime) []
  rw [List.append_nil] at hrun
  exact ⟨_, hrun⟩

/-- **The fields of a record are read back.** -/
theorem completes_fields {r : TypedMcapRecord} (h : r.Fits) (validateCrcs : Bool) (front : Bytes)
    (hsize : (front ++ r.body).length ≤ MAX_SAFE_INTEGER) :
    Completes front (parseFields decode r.body.length validateCrcs r.opcode) r.body r := by
  cases r with
  | header r =>
    exact .get ((recovers_string hdecode h.1).completes <| (recovers_string hdecode h.2).last _ _)
  | footer r =>
    exact .get ((recovers_uint64 h.1).completes <| (recovers_uint64 h.2.1).completes <|
      (recovers_uint32 h.2.2).last _ _)
  | schema r => exact completes_schema hdecode h front
  | channel r =>
    exact .get ((recovers_uint16 h.1).completes <| (recovers_uint16 h.2.1).completes <|
      (recovers_string hdecode h.2.2.1).completes <| (recovers_string hdecode h.2.2.2.1).completes <|
      (recovers_strings hdecode h.2.2.2.2).last _ _)
  | message r => exact completes_message r h front
  | chunk r =>
    refine completes_chunk hdecode h front ?_
    unfold TypedMcapRecord.body MAX_SAFE_INTEGER at hsize
    simp only [List.length_append, length_le] at hsize
    omega
  | messageIndex r =>
    exact .get ((recovers_uint16 h.1).completes <| (recovers_pairs h.2.1 h.2.2).last _ _)
  | chunkIndex r =>
    have hbody : (TypedMcapRecord.chunkIndex r).body = le 8 r.messageStartTime ++
        (le 8 r.messageEndTime ++ (le 8 r.chunkStartOffset ++ (le 8 r.chunkLength ++
          (tupleBytes (le 2) (le 8) r.messageIndexOffsets.items ++ (le 8 r.messageIndexLength ++
            (stringBytes r.compression ++ (le 8 r.compressedSize ++ le 8 r.uncompressedSize))))))) := by
      rw [tupleBytes_numbers, List.append_assoc]
      rfl
    generalize (TypedMcapRecord.chunkIndex r).body.length = n
    rw [hbody]
    exact .get ((recovers_uint64 h.1).completes <| (recovers_uint64 h.2.1).completes <|
      (recovers_uint64 h.2.2.1).completes <| (recovers_uint64 h.2.2.2.1).completes <|
      (recovers_numbers h.2.2.2.2.1).completes <| (recovers_uint64 h.2.2.2.2.2.1).completes <|
      (recovers_string hdecode h.2.2.2.2.2.2.1).completes <|
      (recovers_uint64 h.2.2.2.2.2.2.2.1).completes <|
      (recovers_uint64 h.2.2.2.2.2.2.2.2).last _ _)
  | attachment r => exact completes_attachment hdecode h validateCrcs front hsize
  | attachmentIndex r =>
    exact .get ((recovers_uint64 h.1).completes <| (recovers_uint64 h.2.1).completes <|
      (recovers_uint64 h.2.2.1).completes <| (recovers_uint64 h.2.2.2.1).completes <|
      (recovers_uint64 h.2.2.2.2.1).completes <| (recovers_string hdecode h.2.2.2.2.2.1).completes <|
      (recovers_string hdecode h.2.2.2.2.2.2).last _ _)
  | statistics r =>
    exact .get ((recovers_uint64 h.1).completes <| (recovers_uint16 h.2.1).completes <|
      (recovers_uint32 h.2.2.1).completes <| (recovers_uint32 h.2.2.2.1).completes <|
      (recovers_uint32 h.2.2.2.2.1).completes <| (recovers_uint32 h.2.2.2.2.2.1).completes <|
      (recovers_uint64 h.2.2.2.2.2.2.1).completes <| (recovers_uint64 h.2.2.2.2.2.2.2.1).completes <|
      (recovers_numbers h.2.2.2.2.2.2.2.2).last _ _)
  | metadata r =>
    exact .get ((recovers_string hdecode h.1).completes <| (recovers_strings hdecode h.2).last _ _)
  | metadataIndex r =>
    exact .get ((recovers_uint64 h.1).completes <| (recovers_uint64 h.2.1).completes <|
      (recovers_string hdecode h.2.2).last _ _)
  | summaryOffset r =>
    exact .get ((recovers_uint8 h.1).completes <| (recovers_uint64 h.2.1).completes <|
      (recovers_uint64 h.2.2).last _ _)
  | dataEnd r => exact .get ((recovers_uint32 h).last _ _)
  | unknown r => exact absurd h id

/-- **A record that is written is whole.** -/
theorem whole_of_fits {r : TypedMcapRecord} (h : r.Fits) (validateCrcs : Bool)
    (hsize : r.bytes.length ≤ MAX_SAFE_INTEGER) : Whole decode validateCrcs r.opcode r.body r := by
  have hlength : r.bytes.length = 9 + r.body.length := length_frame r.opcode r.body
  have hmax : MAX_SAFE_INTEGER < 256 ^ 8 := by decide
  have hbody : r.body.length < 256 ^ 8 := by omega
  have hparse := parseRecord_eq decode validateCrcs r.opcode [] r.body hbody
  obtain ⟨reader, hreader⟩ := completes_fields hdecode h validateCrcs (r.opcode :: le 8 r.body.length)
    (by simp only [List.length_append, List.length_cons, length_le]; omega)
  rw [if_neg (by omega), if_neg (Nat.lt_irrefl _)] at hparse
  have hfront : (r.opcode :: le 8 r.body.length).length = ([] : Bytes).length + 9 := by
    rw [List.length_cons, length_le]
    rfl
  rw [hfront] at hreader
  rw [List.nil_append, hreader] at hparse
  unfold Whole
  exact congrArg (Except.map Prod.fst) hparse

end

/-! ## Numbers that wrap -/

/-- **Statistics as they are written**: the numbers of schemas and channels wrap. -/
def Statistics.wrapped (s : Statistics) : Statistics :=
  { s with schemaCount := s.schemaCount % 2 ^ 16, channelCount := s.channelCount % 2 ^ 32 }

theorem body_wrapped (s : Statistics) :
    (TypedMcapRecord.statistics s.wrapped).body = (TypedMcapRecord.statistics s).body := by
  have hschemas : le 2 (s.schemaCount % 2 ^ 16) = le 2 s.schemaCount := le_mod 2 s.schemaCount
  have hchannels : le 4 (s.channelCount % 2 ^ 32) = le 4 s.channelCount := le_mod 4 s.channelCount
  unfold TypedMcapRecord.body Statistics.wrapped
  dsimp only
  rw [hschemas, hchannels]

end Ts
end Mcap

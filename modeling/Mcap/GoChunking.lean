import Mathlib.Data.List.Induction
import Mcap.GoClosing

/-! # Chunks and tables of the Go writer

Which calls go into which chunk is a matter of the calls and the options alone: `chunking` reads
it off.  `Laid` says that the entries and the open chunk of a writer are those of its calls, and
`Tabled` that its tables hold the schemas and the channels of its calls.  One call keeps both.
-/
namespace Mcap
namespace Go

/-! ## Which calls go into which chunk -/

/-- Calls split into those of the chunks that are full and those of the open chunk. -/
structure Chunking where
  closed : List (List Call)
  active : List Call

namespace Chunking

/-- The calls of a chunk that is full with the call `c`, and none in the open one; or the open
chunk with `c` in it. -/
def add {κ : Type} (o : WriterOptions κ) (p : Chunking) (c : Call) : Chunking :=
  if o.chunked && c.inChunk then
    if c.message?.isSome ∧
        effectiveChunkSize o.chunkSize < (callBytes (p.active ++ [c])).length then
      ⟨p.closed ++ [p.active ++ [c]], []⟩
    else ⟨p.closed, p.active ++ [c]⟩
  else p

/-- The chunks once the open one is flushed, if it holds anything. -/
def chunks (p : Chunking) : List (List Call) :=
  if p.active = [] then p.closed else p.closed ++ [p.active]

/-- The calls of the last chunk that may hold messages. -/
def last (p : Chunking) : List Call :=
  if p.active = [] then p.closed.getLast?.getD [] else p.active

end Chunking

/-- **The chunks of a file**, from the calls and the options alone: the open chunk is closed by
the message with which its records are longer than the chunk size. -/
def chunking {κ : Type} (o : WriterOptions κ) (calls : List Call) : Chunking :=
  calls.foldl (Chunking.add o) ⟨[], []⟩

theorem chunking_append {κ : Type} (o : WriterOptions κ) (calls : List Call) (c : Call) :
    chunking o (calls ++ [c]) = (chunking o calls).add o c := by
  rw [chunking, List.foldl_append]
  rfl

theorem chunking_unchunked {κ : Type} {o : WriterOptions κ} (h : o.chunked = false)
    (calls : List Call) : chunking o calls = ⟨[], []⟩ := by
  induction calls using List.reverseRecOn with
  | nil => rfl
  | append_singleton calls c ih =>
    rw [chunking_append, ih, Chunking.add, h, Bool.false_and, if_neg Bool.false_ne_true]

/-- The calls of a chunk. -/
def Entry.chunk? : Entry → Option (List Call)
  | .record _ => none
  | .chunk cs _ _ => some cs

section
variable {κ : Type} [ResettableWriteCloser κ] [Packages κ] {o : WriterOptions κ}
  {ids : List UInt16} {calls cs cs' : List Call} {es es' : List Entry} {c : Call}
  {flushed : Option Chunk} {w w' : Writer κ}

/-- The entries and the open chunk hold the records of the calls; those of one chunk, and all
schemas, channels and messages, in the order of the calls. -/
structure Laid (o : WriterOptions κ) (calls : List Call) (es : List Entry) (cs : List Call) :
    Prop where
  size : o.chunked = true → effectiveChunkSize o.chunkSize = o.chunkSize
  perm : (es.flatMap Entry.flat ++ cs).Perm calls
  messages : messages (es.flatMap Entry.flat ++ cs) = messages calls
  ordered : (es.flatMap Entry.flat ++ cs).filter Call.inChunk = calls.filter Call.inChunk
  closed : es.filterMap Entry.chunk? = (chunking o calls).closed
  active : cs = (chunking o calls).active
  packed : ∀ cs ids out, .chunk cs ids out ∈ es → Packed o (callBytes cs) out

theorem inChunk_of_message? (h : c.inChunk = false) : c.message? = none := by
  cases c with
  | attachment a => rfl
  | metadata m => rfl
  | _ => cases h

theorem messages_singleton (h : c.message? = none) : Go.messages [c] = [] := by
  rw [Go.messages, List.filterMap_cons_none h, List.filterMap_nil]

theorem Laid.step (h : Laid o calls es cs) (hadds : Adds o ids c es cs es' cs' flushed) :
    Laid o (calls ++ [c]) es' cs' := by
  have hclosed := h.closed
  have hactive := h.active
  cases hadds with
  | record hc =>
    have hadd : chunking o (calls ++ [c]) = chunking o calls := by
      rw [chunking_append, Chunking.add, hc, if_neg Bool.false_ne_true]
    have hflat : (es ++ [Entry.record c]).flatMap Entry.flat ++ cs =
        es.flatMap Entry.flat ++ ([c] ++ cs) := by
      rw [List.flatMap_append, List.append_assoc]
      rfl
    refine ⟨h.size, ?_, ?_, ?_, ?_, by rw [hadd]; exact hactive, ?_⟩
    · rw [hflat]
      refine (List.Perm.append_left _ List.perm_append_comm).trans ?_
      rw [← List.append_assoc]
      exact h.perm.append_right [c]
    · rw [hflat, messages_append, messages_append, messages_append, ← h.messages, messages_append]
      by_cases hmsg : c.inChunk = true
      · -- a file without chunks: nothing is in the open one
        rw [hmsg, Bool.and_true] at hc
        have hnil : cs = [] := by rw [hactive, chunking_unchunked hc]
        rw [hnil, messages_nil, List.append_nil, List.append_nil]
      · rw [messages_singleton (inChunk_of_message? (by simpa using hmsg))]
        simp
    · rw [hflat, List.filter_append, List.filter_append, List.filter_append, ← h.ordered,
        List.filter_append]
      by_cases hin : c.inChunk = true
      · rw [hin, Bool.and_true] at hc
        have hnil : cs = [] := by rw [hactive, chunking_unchunked hc]
        rw [hnil, List.filter_nil, List.append_nil, List.append_nil]
      · have hfilter : [c].filter Call.inChunk = [] := List.filter_cons_of_neg hin
        rw [hfilter, List.nil_append, List.append_nil]
    · rw [hadd, List.filterMap_append, hclosed]
      exact List.append_nil _
    · intro cs ids out hmem
      rcases List.mem_append.mp hmem with hmem | hmem
      · exact h.packed cs ids out hmem
      · cases List.mem_singleton.mp hmem
  | active hchunked hc hfull =>
    have hadd : chunking o (calls ++ [c]) = ⟨(chunking o calls).closed, cs ++ [c]⟩ := by
      have hnot : ¬ (c.message?.isSome = true ∧
          effectiveChunkSize o.chunkSize < (callBytes (cs ++ [c])).length) := by
        rintro ⟨hsome, hlt⟩
        cases c with
        | message m => exact hfull m rfl (by rw [Full, ← h.size hchunked]; exact hlt)
        | _ => cases hsome
      rw [chunking_append, Chunking.add, hchunked, hc, Bool.and_true, if_pos rfl, ← hactive,
        if_neg hnot]
    refine ⟨h.size, ?_, ?_, ?_, by rw [hadd]; exact hclosed, by rw [hadd], h.packed⟩
    · rw [← List.append_assoc]
      exact h.perm.append_right [c]
    · rw [← List.append_assoc, messages_append, h.messages, messages_append]
    · rw [← List.append_assoc, List.filter_append, h.ordered, List.filter_append]
  | @chunk m out hchunked hc hfull hout =>
    subst hc
    have hadd : chunking o (calls ++ [.message m]) =
        ⟨(chunking o calls).closed ++ [cs ++ [.message m]], []⟩ := by
      have hyes : (Call.message m).message?.isSome = true ∧
          effectiveChunkSize o.chunkSize < (callBytes (cs ++ [.message m])).length :=
        ⟨rfl, by rw [h.size hchunked]; exact hfull⟩
      rw [chunking_append, Chunking.add, hchunked, ← hactive]
      exact if_pos hyes
    have hflat : (es ++ [Entry.chunk (cs ++ [.message m]) ids out]).flatMap Entry.flat ++ [] =
        (es.flatMap Entry.flat ++ cs) ++ [.message m] := by
      rw [List.append_nil, List.flatMap_append, List.append_assoc]
      simp [Entry.flat]
    refine ⟨h.size, ?_, ?_, ?_, ?_, by rw [hadd], ?_⟩
    · rw [hflat]
      exact h.perm.append_right _
    · rw [hflat, messages_append, h.messages, messages_append]
    · rw [hflat, List.filter_append, h.ordered, List.filter_append]
    · rw [hadd, List.filterMap_append, hclosed]
      rfl
    · intro cs₁ ids₁ out₁ hmem
      rcases List.mem_append.mp hmem with hmem | hmem
      · exact h.packed cs₁ ids₁ out₁ hmem
      · cases List.mem_singleton.mp hmem
        exact hout

/-! ## The tables of the writer -/

omit [ResettableWriteCloser κ] [Packages κ]

/-- The id of the schema of a call. -/
def Call.schemaID? : Call → Option UInt16
  | .schema s => some s.id
  | _ => none

/-- The id of the channel of a call. -/
def Call.channelID? : Call → Option UInt16
  | .channel c => some c.id
  | _ => none

/-- The ids of the schemas of calls. -/
def schemaIDs (cs : List Call) : List UInt16 := cs.filterMap Call.schemaID?

/-- The ids of the channels of calls. -/
def channelIDs (cs : List Call) : List UInt16 := cs.filterMap Call.channelID?

/-- A table holds an entry for each of the known ids, and lists each of them once. -/
structure Table {V : Type} (known ids : List UInt16) (m : BTreeMap UInt16 V) : Prop where
  nodup : ids.Nodup
  mem : ∀ id, id ∈ ids ↔ id ∈ known
  contains : ∀ id, m.contains id = true ↔ id ∈ ids

section
variable {V : Type} {known ids : List UInt16} {m : BTreeMap UInt16 V}

theorem Table.again (h : Table known ids m) {id : UInt16} (hid : m.contains id = true) :
    Table (known ++ [id]) ids m :=
  { h with
    mem := by
      intro id'
      rw [List.mem_append, ← h.mem, List.mem_singleton]
      constructor
      · exact .inl
      · rintro (hin | rfl)
        · exact hin
        · exact (h.contains id').mp hid }

theorem Table.insert (h : Table known ids m) {id : UInt16} (hid : ¬ m.contains id = true) (v : V) :
    Table (known ++ [id]) (ids ++ [id]) (m.insert id v) where
  nodup := by
    have hnew : id ∉ ids := fun hmem => hid ((h.contains id).mpr hmem)
    rw [List.nodup_append]
    refine ⟨h.nodup, List.nodup_singleton _, ?_⟩
    rintro a ha b hb rfl
    exact hnew (List.mem_singleton.mp hb ▸ ha)
  mem id' := by rw [List.mem_append, List.mem_append, h.mem]
  contains id' := by
    rw [List.mem_append, List.mem_singleton, ← h.contains, BTreeMap.contains_iff,
      BTreeMap.contains_iff]
    by_cases he : id = id'
    · subst he
      simp
    · rw [BTreeMap.getElem?_insert_ne _ he]
      simp [Ne.symm he]

end

/-- The tables hold the schemas and the channels of the calls. -/
structure Tabled (calls : List Call) (w : Writer κ) : Prop where
  schemas : Table (schemaIDs calls) w.schemaIDs w.schemas
  channels : Table (channelIDs calls) w.channelIDs w.channels
  filed : w.Filed

theorem Tabled.of_books (h : Tabled calls w) (hsids : w'.schemaIDs = w.schemaIDs)
    (hids : w'.channelIDs = w.channelIDs) (hs : w'.schemas = w.schemas)
    (hc : w'.channels = w.channels) : Tabled calls w' where
  schemas := by rw [hsids, hs]; exact h.schemas
  channels := by rw [hids, hc]; exact h.channels
  filed := ⟨by rw [hs]; exact h.filed.schemas, by rw [hs, hc]; exact h.filed.channels⟩

theorem schemaIDs_append_none (h : c.schemaID? = none) : schemaIDs (calls ++ [c]) = schemaIDs calls := by
  rw [schemaIDs, List.filterMap_append, List.filterMap_cons_none h, List.filterMap_nil,
    List.append_nil]
  rfl

theorem channelIDs_append_none (h : c.channelID? = none) :
    channelIDs (calls ++ [c]) = channelIDs calls := by
  rw [channelIDs, List.filterMap_append, List.filterMap_cons_none h, List.filterMap_nil,
    List.append_nil]
  rfl

theorem Tabled.other (h : Tabled calls w) (hs : c.schemaID? = none) (hc : c.channelID? = none) :
    Tabled (calls ++ [c]) w where
  schemas := by rw [schemaIDs_append_none hs]; exact h.schemas
  channels := by rw [channelIDs_append_none hc]; exact h.channels
  filed := h.filed

theorem Tabled.addSchema (h : Tabled calls w) {s : Schema} (hid : s.id ≠ 0) :
    Tabled (calls ++ [.schema s]) (w.addSchema s) := by
  have hids : schemaIDs (calls ++ [.schema s]) = schemaIDs calls ++ [s.id] := List.filterMap_append
  have hchannels : channelIDs (calls ++ [.schema s]) = channelIDs calls := channelIDs_append_none rfl
  unfold Writer.addSchema
  by_cases hknown : w.schemas.contains s.id = true
  · rw [if_pos hknown]
    exact ⟨by rw [hids]; exact h.schemas.again hknown, by rw [hchannels]; exact h.channels, h.filed⟩
  · rw [if_neg hknown]
    have hinsert := h.schemas.insert hknown s
    refine ⟨by rw [hids]; exact hinsert, by rw [hchannels]; exact h.channels,
      fun id s' hget => ?_, fun id ch hget => ?_⟩
    · have hget' : (w.schemas.insert s.id s)[id]? = some s' := hget
      by_cases he : s.id = id
      · subst he
        rw [BTreeMap.getElem?_insert_self] at hget'
        cases hget'
        exact ⟨rfl, hid⟩
      · rw [BTreeMap.getElem?_insert_ne _ he] at hget'
        exact h.filed.schemas id s' hget'
    · obtain ⟨hcid, hschema⟩ := h.filed.channels id ch hget
      refine ⟨hcid, fun hne => (hinsert.contains _).mpr (List.mem_append_left _ ?_)⟩
      exact (h.schemas.contains _).mp (hschema hne)

theorem Tabled.addChannel (h : Tabled calls w) {ch : Channel}
    (hschema : ch.schemaID ≠ 0 → w.schemas.contains ch.schemaID = true) :
    Tabled (calls ++ [.channel ch]) (w.addChannel ch) := by
  have hids : channelIDs (calls ++ [.channel ch]) = channelIDs calls ++ [ch.id] :=
    List.filterMap_append
  have hschemas : schemaIDs (calls ++ [.channel ch]) = schemaIDs calls := schemaIDs_append_none rfl
  unfold Writer.addChannel
  by_cases hknown : w.channels.contains ch.id = true
  · rw [if_pos hknown]
    exact ⟨by rw [hschemas]; exact h.schemas, by rw [hids]; exact h.channels.again hknown, h.filed⟩
  · rw [if_neg hknown]
    refine ⟨by rw [hschemas]; exact h.schemas, by rw [hids]; exact h.channels.insert hknown ch,
      h.filed.schemas, fun id ch' hget => ?_⟩
    have hget' : (w.channels.insert ch.id ch)[id]? = some ch' := hget
    by_cases he : ch.id = id
    · subst he
      rw [BTreeMap.getElem?_insert_self] at hget'
      cases hget'
      exact ⟨rfl, hschema⟩
    · rw [BTreeMap.getElem?_insert_ne _ he] at hget'
      exact h.filed.channels id ch' hget'

/-! ## The channels of a chunk -/

/-- The message indexes of a chunk are written for channels that include those of its messages. -/
structure Listed (calls : List Call) (es : List Entry) (w : Writer κ) : Prop where
  messages : ∀ m, .message m ∈ calls → m.channelID ∈ w.channelIDs
  chunks : ∀ cs ids out, .chunk cs ids out ∈ es →
    ids.Nodup ∧ ∀ m, .message m ∈ cs → m.channelID ∈ ids

theorem Writer.Leaves.channelIDs {b : Books} (h : w.Leaves flushed c b) :
    ∀ id ∈ w.channelIDs, id ∈ b.channelIDs := by
  intro id hid
  cases c with
  | schema s =>
    rw [h.2]
    unfold Writer.addSchema
    split <;> exact hid
  | channel ch =>
    rw [h.2]
    unfold Writer.addChannel
    split
    · exact hid
    · exact List.mem_append_left _ hid
  | message m =>
    rw [h.2]
    cases flushed <;> exact hid
  | attachment a =>
    rw [h.2]
    exact hid
  | metadata m =>
    rw [show b = _ from h]
    exact hid

theorem Listed.chunk {out : Bytes} (h : Listed calls es w) (ht : Tabled calls w)
    (hcs : ∀ m, .message m ∈ cs → .message m ∈ calls ∨ m.channelID ∈ w.channelIDs) :
    ∀ cs' ids out', .chunk cs' ids out' ∈ es ++ [.chunk cs w.channelIDs out] →
      ids.Nodup ∧ ∀ m, .message m ∈ cs' → m.channelID ∈ ids := by
  intro cs' ids out' hmem
  rcases List.mem_append.mp hmem with hmem | hmem
  · exact h.chunks cs' ids out' hmem
  · cases List.mem_singleton.mp hmem
    refine ⟨ht.channels.nodup, fun m hm => ?_⟩
    rcases hcs m hm with hcalls | hids
    · exact h.messages m hcalls
    · exact hids

variable [ResettableWriteCloser κ] [Packages κ]

/-- **One call** keeps that. -/
theorem Listed.step (h : Listed calls es w) (hl : Laid o calls es cs) (ht : Tabled calls w)
    (hadds : Adds o w.channelIDs c es cs es' cs' flushed) (hleaves : w.Leaves flushed c w'.books) :
    Listed (calls ++ [c]) es' w' where
  messages := by
    intro m hm
    refine hleaves.channelIDs _ ?_
    rcases List.mem_append.mp hm with hm | hm
    · exact h.messages m hm
    · obtain rfl := List.mem_singleton.mp hm
      exact (ht.channels.contains _).mp hleaves.1
  chunks := by
    cases hadds with
    | record hc =>
      intro cs ids out hmem
      rcases List.mem_append.mp hmem with hmem | hmem
      · exact h.chunks cs ids out hmem
      · cases List.mem_singleton.mp hmem
    | active hchunked hc hfull => exact h.chunks
    | @chunk m out hchunked hc hfull hout =>
      subst hc
      refine h.chunk ht fun m' hm' => ?_
      rcases List.mem_append.mp hm' with hm' | hm'
      · exact .inl (hl.perm.mem_iff.mp (List.mem_append_right _ hm'))
      · cases List.mem_singleton.mp hm'
        exact .inr ((ht.channels.contains _).mp hleaves.1)

end

end Go
end Mcap

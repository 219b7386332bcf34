import Mcap.JournalRuns
import Mcap.Conflicts

/-! # Registered ids and the records behind them

A writer trusts its registries: a schema or a channel that is registered is not written
again.  So each registered id should be *backed* by a record that has been written, and that
record should come before everything that refers to it (`Backed`).

The writer registers first and writes then, and a write is refused while an attachment is in
progress.  `Op.Orderly` is what a caller must not do: get past the checks of a call during an
attachment, or write a message with a new schema on a channel id that is taken.  In a session
of orderly calls every id is backed and a call that fails leaves the registries alone
(`backed_of_orderly`); `schema_not_backed` is a session in which an id is registered that no
record is behind.
-/
namespace Mcap

/-! ## Ledgers and the records they come from -/

namespace Ledger

theorem record_of_schemas {rs : List Record} {id : UInt16} {content : SchemaContent}
    (h : (empty.after rs).schemas id = some content) : content.record id ∈ rs := by
  induction rs using List.reverseRecOn with
  | nil => cases h
  | append_singleton rs r ih =>
    rw [after_append] at h
    have hold : (empty.after rs).schemas id = some content → content.record id ∈ rs ++ [r] :=
      fun hid => List.mem_append_left _ (ih hid)
    cases r with
    | schema header data =>
      by_cases hid : id = header.id
      · subst hid
        have hc : Function.update (empty.after rs).schemas header.id _ header.id = some content := h
        rw [Function.update_self] at hc
        cases hc
        exact List.mem_append_right _ (List.mem_singleton.mpr rfl)
      · exact hold ((Function.update_of_ne hid _ _).symm.trans h)
    | _ => exact hold h

theorem record_of_channels {rs : List Record} {id : UInt16} {content : ChannelContent}
    (h : (empty.after rs).channels id = some content) : content.record id ∈ rs := by
  induction rs using List.reverseRecOn with
  | nil => cases h
  | append_singleton rs r ih =>
    rw [after_append] at h
    have hold : (empty.after rs).channels id = some content → content.record id ∈ rs ++ [r] :=
      fun hid => List.mem_append_left _ (ih hid)
    cases r with
    | channel channel =>
      by_cases hid : id = channel.id
      · subst hid
        have hc : Function.update (empty.after rs).channels channel.id _ channel.id = some content := h
        rw [Function.update_self] at hc
        cases hc
        exact List.mem_append_right _ (List.mem_singleton.mpr rfl)
      · exact hold ((Function.update_of_ne hid _ _).symm.trans h)
    | _ => exact hold h

theorem allows_of_allowsAll {l : Ledger} {pre post : List Record} {r : Record}
    (h : l.AllowsAll (pre ++ r :: post)) : (l.after pre).Allows r :=
  (allowsAll_append.mp h).2.1

end Ledger

/-! ## Backed ids -/

section
variable {σ : Type}

/-- **Every registered id is backed** by one of the records, which comes before all that
refer to it. -/
structure Backed (w : Writer σ Stream) (records : List Record) : Prop where
  schema : ∀ id, w.allSchemaIds.contains id = true →
    ∃ content, w.ledger.schemas id = some content ∧ content.record id ∈ records
  channel : ∀ id, w.allChannelIds.contains id = true →
    ∃ content, w.ledger.channels id = some content ∧ content.record id ∈ records
  beforeChannel : ∀ pre channel post, records = pre ++ .channel channel :: post →
    channel.schemaId ≠ 0 → ∃ content, w.ledger.schemas channel.schemaId = some content ∧
      content.record channel.schemaId ∈ pre
  beforeMessage : ∀ pre header data post, records = pre ++ .message header data :: post →
    ∃ content, w.ledger.channels header.channelId = some content ∧
      content.record header.channelId ∈ pre

variable [Encoders σ] {w w' : Writer σ Stream} {K : Record → Prop} {o : WriteOptions}
  {calls : List (Op × Res McapError Reply)} {j : Journal}

/-- **A faithful journal backs every id.** -/
theorem Faithful.backed (h : Faithful K o calls w j) : Backed w j.flat where
  schema := by
    intro id hid
    obtain ⟨content, hc⟩ := Option.isSome_iff_exists.mp (h.sound.schemas.isSome_contentOf hid)
    refine ⟨content, hc, Ledger.record_of_schemas ?_⟩
    rw [← h.ledger]
    exact hc
  channel := by
    intro id hid
    obtain ⟨content, hc⟩ := Option.isSome_iff_exists.mp (h.sound.channels.isSome_contentOf hid)
    refine ⟨content, hc, Ledger.record_of_channels ?_⟩
    rw [← h.ledger]
    exact hc
  beforeChannel := by
    intro pre channel post hcut hne
    have hall := h.allowed
    rw [hcut] at hall
    have hallows := Ledger.allows_of_allowsAll hall
    obtain ⟨content, hc⟩ := Option.isSome_iff_exists.mp (hallows.2.resolve_left hne)
    refine ⟨content, ?_, Ledger.record_of_schemas hc⟩
    rw [h.ledger, hcut, Ledger.after_append]
    exact Ledger.schemas_after (Ledger.allowsAll_append.mp hall).2 hc
  beforeMessage := by
    intro pre header data post hcut
    have hall := h.allowed
    rw [hcut] at hall
    have hallows := Ledger.allows_of_allowsAll hall
    obtain ⟨content, hc⟩ := Option.isSome_iff_exists.mp hallows
    refine ⟨content, ?_, Ledger.record_of_channels hc⟩
    rw [h.ledger, hcut, Ledger.after_append]
    exact Ledger.channels_after (Ledger.allowsAll_append.mp hall).2 hc

/-! ## Orderly calls -/

/-- A message whose schema is new is not on a channel id that is taken by another channel. -/
def Op.Coherent (w : Writer σ Stream) : Op → Prop
  | .write message => ∀ schema, message.channel.schema = some schema →
      w.allSchemaIds[schema.id]? = none → w.AcceptsChannel message.channel
  | _ => True

/-- **What a caller must keep to**: no call gets past its checks during an attachment, and a
message does not bring a new schema to a channel id that is taken. -/
def Op.Orderly (w : Writer σ Stream) (op : Op) : Prop := (op.Touches w → w.Free) ∧ op.Coherent w

/-- The calls that register schemas and channels. -/
def Op.Registers : Op → Prop
  | .addSchema .. | .addChannel .. | .write _ => True
  | _ => False

omit [Encoders σ] in
theorem run_of_ofId {x : Exec (Writer σ Stream) McapError UInt16} {e : McapError}
    (h : Reply.ofId x w = (.err e, w')) : x w = (.err e, w') := by
  rw [Reply.ofId, Exec.bind_run] at h
  rcases hx : x w with ⟨a | e' | _, w₁⟩ <;> rw [hx] at h <;> cases h
  rfl

omit [Encoders σ] in
theorem run_of_ofUnit {x : Exec (Writer σ Stream) McapError Unit} {e : McapError}
    (h : Reply.ofUnit x w = (.err e, w')) : x w = (.err e, w') := by
  rw [Reply.ofUnit, Exec.bind_run] at h
  rcases hx : x w with ⟨a | e' | _, w₁⟩ <;> rw [hx] at h <;> cases h
  rfl

/-- **An orderly call that fails leaves the ids alone.** -/
theorem sameIds_of_failed (h : Shows w j) (hs : w.Sound) {op : Op} (hreg : op.Registers)
    (ho : op.Orderly w) {e : McapError} (hrun : op.run w = (.err e, w')) (hio : ¬ IsIo e) :
    w.SameIds w' := by
  cases op with
  | addSchema name encoding data =>
    have hx := run_of_ofId hrun
    by_cases ht : Op.Touches w (.addSchema name encoding data)
    · have hq := Writer.addSchema_quietly (K := fun _ => True) h hs (h.free (ho.1 ht)) name encoding
        data (fun _ => trivial)
      rw [hx] at hq
      exact (hq.resolve_left hio).2 e rfl
    · by_cases hc : w.canonicalSchemas.getByLeft ⟨name, encoding, data⟩ = none
      · have hfull : w.allSchemaIds.contains
            (IdTable.candidate w.allSchemaIds w.nextSchemaId) = true := by
          by_contra hne
          exact ht ⟨hc, hne⟩
        rw [Writer.addSchema_full hc hfull] at hx
        cases hx
        exact ⟨rfl, rfl, rfl, rfl⟩
      · obtain ⟨id, hid⟩ := Option.ne_none_iff_exists'.mp hc
        rw [Writer.addSchema_known hid] at hx
        cases hx
  | addChannel schemaId topic messageEncoding metadata =>
    have hx := run_of_ofId hrun
    by_cases ht : Op.Touches w (.addChannel schemaId topic messageEncoding metadata)
    · have hq := Writer.addChannel_quietly (K := fun _ => True) h hs (h.free (ho.1 ht)) schemaId
        topic messageEncoding metadata (fun _ => trivial)
      rw [hx] at hq
      exact (hq.resolve_left hio).2 e rfl
    · by_cases hc : w.canonicalChannels.getByLeft ⟨topic, schemaId, messageEncoding, metadata⟩ = none
      · by_cases hunk : schemaId ≠ 0 ∧ w.allSchemaIds.contains schemaId = false
        · rw [Writer.addChannel_unknownSchema hc hunk] at hx
          cases hx
          exact ⟨rfl, rfl, rfl, rfl⟩
        · have hfull : w.allChannelIds.contains
              (IdTable.candidate w.allChannelIds w.nextChannelId) = true := by
            by_contra hne
            exact ht ⟨hc, hunk, hne⟩
          rw [Writer.addChannel_full hc hunk hfull] at hx
          cases hx
          exact ⟨rfl, rfl, rfl, rfl⟩
      · obtain ⟨id, hid⟩ := Option.ne_none_iff_exists'.mp hc
        rw [Writer.addChannel_known hid] at hx
        cases hx
  | write message =>
    have hx := run_of_ofUnit hrun
    by_cases ht : Op.Touches w (.write message)
    · have hall : Writer.KeepsMessage (fun _ => True) message :=
        ⟨fun _ _ => trivial, trivial, trivial⟩
      have hposts := Writer.write_posts h hs (h.free (ho.1 ht)) hall
      rw [hx] at hposts
      have hch : w.AcceptsChannel message.channel := by
        rcases ht.2 with ⟨schema, hsch, hnew⟩ | hch
        · exact ho.2 schema hsch hnew
        · exact hch
      have hok := (hposts.resolve_left hio).2.1 ht.1 hch
      cases hok
    · rcases Writer.write_untouched ht with ⟨e', -, hr⟩ | hr
      · rw [hr] at hx
        cases hx
        exact ⟨rfl, rfl, rfl, rfl⟩
      · rw [hr] at hx
        cases hx
  | _ => exact hreg.elim

/-- **In a session of orderly calls every registered id is backed**, and a call that fails
leaves the ids alone. -/
theorem backed_of_orderly (h : Writer.Session (fun w op _ => op.Orderly w) o calls w) :
    (∃ j, Shows w j ∧ Backed w j.flat) ∧
      ∀ (op : Op) e w', op.Registers → op.Orderly w → op.run w = (.err e, w') → ¬ IsIo e →
        w.SameIds w' := by
  obtain ⟨j, hj⟩ := h.faithful (K := fun _ => True) trivial fun w op res hp =>
    ⟨hp.1, Op.keeps_true o op⟩
  refine ⟨⟨j, hj.shows_, hj.backed⟩, ?_⟩
  intro op e w' hreg ho hrun hio
  exact sameIds_of_failed hj.shows_ hj.sound hreg ho hrun hio

end

/-! ## Sessions -/

/-- A schema that is added to a new writer is backed. -/
theorem backed_of_orderly_addSchema : ∃ w : Writer Empty Stream,
    Writer.withOptions Stream.empty plainOptions = .ok w ∧
      ((Op.addSchema "a" "" []).run w).1 = .ok (.id 1) ∧
      ∃ j, Shows ((Op.addSchema "a" "" []).run w).2 j ∧
        Backed ((Op.addSchema "a" "" []).run w).2 j.flat := by
  refine ⟨_, rfl, by decide +kernel, ?_⟩
  have hstart : Writer.Session (fun w op _ => Op.Orderly w op) plainOptions []
    (_ : Writer Empty Stream) := .start rfl
  refine (backed_of_orderly (hstart.call (show Op.Orderly _ (.addSchema "a" "" []) from
    ⟨?_, trivial⟩) rfl ?_)).1
  · intro _ a hne
    cases hne
  · exact returned_of_ok (a := .id 1) (by decide +kernel)

section
variable {o : WriteOptions} {es : List Entry} {e : Entry}

theorem length_bytes_le (he : e ∈ es) :
    MAGIC.length + (e.bytes o).length ≤ (dataBytes o es).length := by
  obtain ⟨pre, post, rfl⟩ := List.append_of_mem he
  simp only [dataBytes, List.flatMap_append, List.flatMap_cons, List.length_append]
  omega

theorem length_schema_entry {content : SchemaContent} {id : UInt16}
    (h : content.record id ∈ e.flat) : 17 < (e.bytes o).length := by
  cases e with
  | record r =>
    obtain rfl : content.record id = r := List.mem_singleton.mp h
    rw [Entry.bytes_record, Record.frame, length_frame]
    simp only [SchemaContent.record, Record.body, SchemaHeader.bytes, List.length_append, length_u16,
      length_le, length_writeString]
    omega
  | chunk records out =>
    rw [Entry.bytes_chunk, List.length_append, Record.frame, length_frame, closedChunk, Record.body,
      List.length_append, ChunkHeader.length_bytes]
    omega

end

/-- Where the attachment in progress starts. -/
def Writer.attachmentStart {σ : Type} (w : Writer σ Stream) : Option Nat :=
  match w.writer with
  | some (.attachment a) => some a.recordOffset
  | _ => none

theorem Shows.attachmentStart {σ : Type} [Encoders σ] {w : Writer σ Stream} {j : Journal} {n : Nat}
    (h : Shows w j) (hn : w.attachmentStart = some n) :
    (dataBytes w.options j.entries).length = n ∧ j.flat = j.entries.flatMap Entry.flat := by
  have hm := h.mode
  unfold Writer.attachmentStart at hn
  generalize w.writer = slot, w.dropped = dropped at hm hn
  cases hm with
  | raw _ => cases hn
  | chunk _ => cases hn
  | attachment _ _ =>
    cases hn
    exact ⟨rfl, List.append_nil _⟩
  | lost _ => cases hn

/-- **A schema that no record is behind**: it is added during an attachment. -/
theorem schema_not_backed : ∃ (calls : List (Op × Res McapError Reply)) (w : Writer Empty Stream),
    Writer.Session (fun _ _ _ => True) plainOptions calls w ∧
      ¬ ∃ j, Shows w j ∧ Backed w j.flat := by
  have hstart : Writer.Session (fun _ _ _ => True) plainOptions [] (_ : Writer Empty Stream) :=
    .start rfl
  refine ⟨_, _, hstart.runAll [.startAttachment 1 ⟨0, 0, "", ""⟩, .addSchema "a" "" []] ?_, ?_⟩
  · decide +kernel
  · rintro ⟨j, hshows, hbacked⟩
    obtain ⟨hlen, hflat⟩ := hshows.attachmentStart (n := 25) (by decide +kernel)
    obtain ⟨content, -, hmem⟩ := hbacked.schema 1 (by decide +kernel)
    rw [hflat] at hmem
    obtain ⟨e, he, hin⟩ := List.mem_flatMap.mp hmem
    have hle := length_bytes_le (o := plainOptions) he
    have hlt := length_schema_entry (o := plainOptions) hin
    have hsame : (dataBytes plainOptions j.entries).length = 25 := hlen
    rw [hsame] at hle
    simp only [MAGIC, List.length_cons, List.length_nil] at hle
    omega

end Mcap

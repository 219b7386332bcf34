import Mcap.TsCodec
import Mcap.TsFinishing

/-! # What a writer of the TypeScript library has been told

Behind some calls a writer has been told of schemas and channels, which it has given ids
(`schemasFrom`, `channelsFrom`), and of messages, some of which it has accepted (`accepted`).  A
message is accepted if its channel is known, with its schema (`Known`).

The schemas, channels and messages of its journal are what it has `told`: each message behind its
channel and its schema, which are the ones that are registered (`Agrees`).
-/
namespace Mcap
namespace Ts

open McapRecordBuilder BufferBuilder

/-! ## What calls say -/

/-- The schemas that are registered, with their ids. -/
def schemasFrom : Nat → List Call → List Schema
  | _, [] => []
  | id, .registerSchema info :: calls =>
      { id, name := info.name, encoding := info.encoding, data := info.data } ::
        schemasFrom (id + 1) calls
  | id, _ :: calls => schemasFrom id calls

/-- The channels that are registered, with their ids. -/
def channelsFrom : Nat → List Call → List Channel
  | _, [] => []
  | id, .registerChannel info :: calls =>
      { id, schemaId := info.schemaId, topic := info.topic, messageEncoding := info.messageEncoding,
        metadata := info.metadata } :: channelsFrom (id + 1) calls
  | id, _ :: calls => channelsFrom id calls

/-- The message of a call that is accepted. -/
def acceptedOf (options : McapWriterOptions) (w : McapWriter) : Call → List Message
  | .addMessage message =>
      match (w.addMessage options message).1 with
      | .ok () => [message]
      | .error _ => []
  | _ => []

/-- **The messages that are accepted** along some calls. -/
def accepted (options : McapWriterOptions) : McapWriter → List Call → List Message
  | _, [] => []
  | w, call :: calls => acceptedOf options w call ++ accepted options (call.perform options w) calls

/-- A channel that is registered, with its schema if it has one. -/
def Known (w : McapWriter) (channelId : Nat) : Prop :=
  ∃ channel, w.channels.get? channelId = some channel ∧
    (channel.schemaId = 0 ∨ (w.schemas.get? channel.schemaId).isSome)

/-- **What a call makes a writer tell.** -/
def toldOf (options : McapWriterOptions) (w : McapWriter) : Call → List TypedMcapRecord
  | .addMessage message =>
      match (w.addMessage options message).1 with
      | .ok () => definitionsFor w message.channelId ++ [.message message]
      | .error _ => []
  | _ => []

/-! ## Kinds -/

/-- Schemas, channels and messages. -/
def sent : TypedMcapRecord → Bool
  | .schema _ => true
  | .channel _ => true
  | .message _ => true
  | _ => false

theorem sent_of_content {r : TypedMcapRecord} (h : r.Content) : sent r = true := by
  cases r <;> first | rfl | cases h

/-- The messages among records. -/
def messagesOf (l : List TypedMcapRecord) : List Message := l.filterMap TypedMcapRecord.message?

@[simp] theorem messagesOf_append (l l' : List TypedMcapRecord) :
    messagesOf (l ++ l') = messagesOf l ++ messagesOf l' := List.filterMap_append

theorem messagesOf_filter (l : List TypedMcapRecord) : messagesOf (l.filter sent) = messagesOf l := by
  induction l with
  | nil => rfl
  | cons r l ih =>
    cases r <;> first
      | exact ih
      | exact congrArg (List.cons _) ih

theorem logTimes_eq (l : List TypedMcapRecord) : logTimes l = (messagesOf l).map Message.logTime := rfl

theorem definitionsFor_content (w : McapWriter) (channelId : Nat) :
    ∀ r ∈ definitionsFor w channelId, r.Content ∧ r.message? = none := by
  intro r hr
  unfold definitionsFor at hr
  split at hr
  · cases hget : w.channels.get? channelId with
    | none =>
      rw [hget] at hr
      cases hr
    | some channel =>
      rw [hget] at hr
      rcases List.mem_append.mp hr with hr | hr
      · unfold schemaFor at hr
        split at hr
        · obtain ⟨schema, -, rfl⟩ := List.mem_map.mp hr
          exact ⟨trivial, rfl⟩
        · cases hr
      · rw [List.mem_singleton.mp hr]
        exact ⟨trivial, rfl⟩
  · cases hr

theorem messagesOf_definitionsFor (w : McapWriter) (channelId : Nat) :
    messagesOf (definitionsFor w channelId) = [] :=
  List.filterMap_eq_nil_iff.mpr fun r hr => (definitionsFor_content w channelId r hr).2

theorem messagesOf_toldOf (options : McapWriterOptions) (w : McapWriter) (call : Call) :
    messagesOf (toldOf options w call) = acceptedOf options w call := by
  cases call with
  | addMessage message =>
    show messagesOf (match (w.addMessage options message).1 with
      | .ok () => definitionsFor w message.channelId ++ [.message message]
      | .error _ => []) = (match (w.addMessage options message).1 with
      | .ok () => [message]
      | .error _ => [])
    split
    · rw [messagesOf_append, messagesOf_definitionsFor]
      rfl
    · rfl
  | _ => rfl

/-! ## The registry -/

/-- A writer with the same registry. -/
structure SameRegistry (w w' : McapWriter) : Prop where
  schemas : w'.schemas = w.schemas
  channels : w'.channels = w.channels
  writtenSchemaIds : w'.writtenSchemaIds = w.writtenSchemaIds
  writtenChannelIds : w'.writtenChannelIds = w.writtenChannelIds

section
variable {options : McapWriterOptions} {w w' w'' : McapWriter}

theorem SameRegistry.refl (w : McapWriter) : SameRegistry w w := ⟨rfl, rfl, rfl, rfl⟩

theorem SameRegistry.trans (h : SameRegistry w w') (h' : SameRegistry w' w'') : SameRegistry w w'' :=
  ⟨h'.schemas.trans h.schemas, h'.channels.trans h.channels,
    h'.writtenSchemaIds.trans h.writtenSchemaIds, h'.writtenChannelIds.trans h.writtenChannelIds⟩

theorem sameRegistry_putWith (add : ChunkBuilder → ChunkBuilder)
    (write : McapRecordBuilder → McapRecordBuilder) (w : McapWriter) :
    SameRegistry w (putWith add write w) := by
  unfold putWith
  split <;> exact ⟨rfl, rfl, rfl, rfl⟩

theorem sameRegistry_finalizeChunk (options : McapWriterOptions) (w : McapWriter) :
    SameRegistry w (w.finalizeChunk options) := by
  unfold McapWriter.finalizeChunk
  split
  · exact .refl w
  · split
    · exact .refl w
    · exact ⟨rfl, rfl, rfl, rfl⟩

/-- **What has been told agrees with the registry**, and each message comes behind its channel, and
that behind its schema. -/
structure Agrees (w : McapWriter) (told : List TypedMcapRecord) : Prop where
  schema : ∀ s, .schema s ∈ told → w.schemas.get? s.id = some s
  channel : ∀ c, .channel c ∈ told → w.channels.get? c.id = some c
  writtenSchema : ∀ id ∈ w.writtenSchemaIds, ∃ s, w.schemas.get? id = some s ∧ .schema s ∈ told
  writtenChannel : ∀ id ∈ w.writtenChannelIds, ∃ c, w.channels.get? id = some c ∧ .channel c ∈ told ∧
    (c.schemaId = 0 ∨ c.schemaId ∈ w.writtenSchemaIds)
  ordered : ∀ front m back, told = front ++ .message m :: back → ∃ c, .channel c ∈ front ∧
    c.id = m.channelId ∧ (c.schemaId = 0 ∨ ∃ s, .schema s ∈ front ∧ s.id = c.schemaId)

variable {told : List TypedMcapRecord}

theorem Agrees.congr (h : Agrees w told) (hsame : SameRegistry w w') : Agrees w' told where
  schema := by rw [hsame.schemas]; exact h.schema
  channel := by rw [hsame.channels]; exact h.channel
  writtenSchema := by rw [hsame.writtenSchemaIds, hsame.schemas]; exact h.writtenSchema
  writtenChannel := by
    rw [hsame.writtenChannelIds, hsame.channels, hsame.writtenSchemaIds]
    exact h.writtenChannel
  ordered := h.ordered

theorem split_concat {r : TypedMcapRecord} {m : Message} {front back : List TypedMcapRecord}
    (h : told ++ [r] = front ++ .message m :: back) :
    (∃ back', told = front ++ .message m :: back') ∨ (told = front ∧ r = .message m) := by
  rcases List.append_eq_append_iff.mp h with ⟨more, rfl, hr⟩ | ⟨more, rfl, hr⟩
  · cases more with
    | nil =>
      rw [List.nil_append] at hr
      exact .inr ⟨(List.append_nil _).symm, (List.cons.inj hr).1⟩
    | cons r' more =>
      have := congrArg List.length hr
      simp only [List.length_append, List.length_cons, List.length_nil] at this
      omega
  · cases more with
    | nil =>
      rw [List.nil_append] at hr
      exact .inr ⟨List.append_nil _, (List.cons.inj hr).1.symm⟩
    | cons r' more =>
      obtain ⟨rfl, -⟩ := List.cons.inj hr
      exact .inl ⟨more, rfl⟩

theorem Agrees.ordered_concat (h : Agrees w told) {r : TypedMcapRecord} (hr : r.message? = none) :
    ∀ front m back, told ++ [r] = front ++ .message m :: back → ∃ c, .channel c ∈ front ∧
      c.id = m.channelId ∧ (c.schemaId = 0 ∨ ∃ s, .schema s ∈ front ∧ s.id = c.schemaId) := by
  intro front m back heq
  rcases split_concat heq with ⟨back', heq⟩ | ⟨-, rfl⟩
  · exact h.ordered front m back' heq
  · cases hr

theorem Agrees.needSchema (h : Agrees w told) (hr : Registered w) {schemaId : Nat}
    (hok : w.needSchema schemaId = .ok w') :
    Agrees w' (told ++ schemaFor w schemaId) ∧ w'.schemas = w.schemas ∧ w'.channels = w.channels ∧
      w'.writtenChannelIds = w.writtenChannelIds ∧ (schemaId = 0 ∨ schemaId ∈ w'.writtenSchemaIds) := by
  rcases needSchema_eq_ok hok with ⟨hneed, rfl⟩ | ⟨hneed, schema, hget, rfl⟩
  · unfold schemaFor
    rw [if_neg hneed, List.append_nil]
    exact ⟨h, rfl, rfl, rfl, by tauto⟩
  · unfold schemaFor
    rw [if_pos hneed, hget]
    have hput : SameRegistry w (w.putSchema schema) :=
      sameRegistry_putWith (·.addSchema schema) (fun b => (writeSchema schema b).1) w
    have hid := hr.schemas schemaId schema hget
    refine ⟨?_, hput.schemas, hput.channels, hput.writtenChannelIds,
      .inr (List.mem_append_right _ (List.mem_singleton_self _))⟩
    have hagrees : Agrees { w with writtenSchemaIds := w.writtenSchemaIds ++ [schemaId] }
        (told ++ [.schema schema]) := by
      constructor
      · intro s hs
        rcases List.mem_append.mp hs with hs | hs
        · exact h.schema s hs
        · cases List.mem_singleton.mp hs
          exact hid ▸ hget
      · intro c hc
        exact h.channel c (by simpa using hc)
      · intro id hmem
        rcases List.mem_append.mp hmem with hmem | hmem
        · obtain ⟨s, hs, htold⟩ := h.writtenSchema id hmem
          exact ⟨s, hs, List.mem_append_left _ htold⟩
        · cases List.mem_singleton.mp hmem
          exact ⟨schema, hget, List.mem_append_right _ (List.mem_singleton_self _)⟩
      · intro id hmem
        obtain ⟨c, hc, htold, hschema⟩ := h.writtenChannel id hmem
        exact ⟨c, hc, List.mem_append_left _ htold, hschema.imp_right (List.mem_append_left _)⟩
      · exact h.ordered_concat rfl
    exact hagrees.congr ⟨hput.schemas, hput.channels, rfl, hput.writtenChannelIds⟩

/-- **A channel is told of**, behind its schema. -/
theorem Agrees.needChannel (h : Agrees w told) (hr : Registered w) {channelId : Nat}
    (hok : w.needChannel channelId = .ok w') :
    Agrees w' (told ++ definitionsFor w channelId) ∧ Known w channelId ∧
      w'.schemas = w.schemas ∧ w'.channels = w.channels ∧ channelId ∈ w'.writtenChannelIds := by
  rcases needChannel_eq_ok hok with ⟨hneed, rfl⟩ | ⟨hneed, channel, w₁, hget, hschema, rfl⟩
  · unfold definitionsFor
    rw [if_neg (not_not.mpr hneed), List.append_nil]
    obtain ⟨c, hc, -, hwritten⟩ := h.writtenChannel channelId hneed
    refine ⟨h, ⟨c, hc, hwritten.imp_right fun hmem => ?_⟩, rfl, rfl, hneed⟩
    obtain ⟨s, hs, -⟩ := h.writtenSchema _ hmem
    rw [hs]
    rfl
  · unfold definitionsFor
    rw [if_pos hneed, hget, ← List.append_assoc]
    obtain ⟨h₁, hschemas, hchannels, hwritten, hknown⟩ := h.needSchema hr hschema
    have hput : SameRegistry w₁ (w₁.putChannel channel) :=
      sameRegistry_putWith (·.addChannel channel) (fun b => (writeChannel channel b).1) w₁
    have hid := hr.channels channelId channel hget
    refine ⟨?_, ⟨channel, hget, hknown.imp_right fun hmem => ?_⟩, hput.schemas.trans hschemas,
      hput.channels.trans hchannels, List.mem_append_right _ (List.mem_singleton_self _)⟩
    · have hagrees : Agrees { w₁ with writtenChannelIds := w₁.writtenChannelIds ++ [channelId] }
          (told ++ schemaFor w channel.schemaId ++ [.channel channel]) := by
        constructor
        · intro s hs
          exact h₁.schema s (by simpa using hs)
        · intro c hc
          rcases List.mem_append.mp hc with hc | hc
          · exact h₁.channel c hc
          · cases List.mem_singleton.mp hc
            show w₁.channels.get? channel.id = some channel
            rw [hchannels, hid]
            exact hget
        · intro id hmem
          obtain ⟨s, hs, htold⟩ := h₁.writtenSchema id hmem
          exact ⟨s, hs, List.mem_append_left _ htold⟩
        · intro id hmem
          rcases List.mem_append.mp hmem with hmem | hmem
          · obtain ⟨c, hc, htold, hs⟩ := h₁.writtenChannel id hmem
            exact ⟨c, hc, List.mem_append_left _ htold, hs⟩
          · cases List.mem_singleton.mp hmem
            exact ⟨channel, hchannels ▸ hget, List.mem_append_right _ (List.mem_singleton_self _), hknown⟩
        · exact h₁.ordered_concat rfl
      exact hagrees.congr ⟨hput.schemas, hput.channels, hput.writtenSchemaIds, rfl⟩
    · obtain ⟨s, hs, -⟩ := h₁.writtenSchema _ hmem
      rw [← hschemas, hs]
      rfl

theorem needChannel_of_known {channelId : Nat} (h : Known w channelId) :
    ∃ w', w.needChannel channelId = .ok w' := by
  obtain ⟨channel, hget, hschema⟩ := h
  unfold McapWriter.needChannel
  split
  · rw [hget]
    show ∃ w', (w.needSchema channel.schemaId).bind _ = .ok w'
    have hneed : ∃ w₁, w.needSchema channel.schemaId = .ok w₁ := by
      unfold McapWriter.needSchema
      split
      · rename_i hneed
        rcases hschema with hzero | hsome
        · exact absurd hzero hneed.1
        · obtain ⟨schema, hs⟩ := Option.isSome_iff_exists.mp hsome
          rw [hs]
          exact ⟨_, rfl⟩
      · exact ⟨_, rfl⟩
    obtain ⟨w₁, hw₁⟩ := hneed
    rw [hw₁]
    exact ⟨_, rfl⟩
  · exact ⟨_, rfl⟩

variable (options) in
/-- **A message is told of**, behind the definitions that it needs. -/
theorem Agrees.addMessage (h : Agrees w told) (hr : Registered w) {message : Message}
    (hok : (counted message w).needChannel message.channelId = .ok w') :
    Agrees (w.addMessage options message).2
      (told ++ (definitionsFor w message.channelId ++ [.message message])) ∧
      Known w message.channelId := by
  have hcounted : Agrees (counted message w) told := h.congr ⟨rfl, rfl, rfl, rfl⟩
  obtain ⟨h₁, hknown, hschemas, hchannels, hwritten⟩ :=
    hcounted.needChannel ⟨hr.schemas, hr.channels⟩ hok
  have hput : Agrees (w'.putMessage message)
      (told ++ (definitionsFor w message.channelId ++ [.message message])) := by
    rw [← List.append_assoc]
    have hsame := h₁.congr (sameRegistry_putWith (·.addMessage message) (writeMessage message) w')
    constructor
    · intro s hs
      rcases List.mem_append.mp hs with hs | hs
      · exact hsame.schema s hs
      · cases List.mem_singleton.mp hs
    · intro c hc
      rcases List.mem_append.mp hc with hc | hc
      · exact hsame.channel c hc
      · cases List.mem_singleton.mp hc
    · intro id hmem
      obtain ⟨s, hs, htold⟩ := hsame.writtenSchema id hmem
      exact ⟨s, hs, List.mem_append_left _ htold⟩
    · intro id hmem
      obtain ⟨c, hc, htold, hs⟩ := hsame.writtenChannel id hmem
      exact ⟨c, hc, List.mem_append_left _ htold, hs⟩
    · intro front m back heq
      rcases split_concat heq with ⟨back', heq⟩ | ⟨rfl, hm⟩
      · exact hsame.ordered front m back' heq
      · cases hm
        obtain ⟨c, hc, htold, hs⟩ := h₁.writtenChannel _ hwritten
        have hregistered : Registered w' := ⟨by rw [hschemas]; exact hr.schemas,
          by rw [hchannels]; exact hr.channels⟩
        refine ⟨c, htold, hregistered.channels _ c hc, hs.imp_right fun hmem => ?_⟩
        obtain ⟨s, hget, hmem'⟩ := h₁.writtenSchema _ hmem
        exact ⟨s, hmem', hregistered.schemas _ s hget⟩
  rw [addMessage_eq_ok hok]
  refine ⟨?_, hknown⟩
  split
  · exact hput.congr (sameRegistry_finalizeChunk options _)
  · exact hput

variable (options) in
theorem Agrees.accepted_iff (h : Agrees w told) (hr : Registered w) (message : Message) :
    (w.addMessage options message).1 = .ok () ↔ Known w message.channelId := by
  constructor
  · intro hok
    rcases hneed : (counted message w).needChannel message.channelId with e | w'
    · rw [addMessage_eq_error hneed] at hok
      cases hok
    · exact (h.addMessage options hr hneed).2
  · intro hknown
    obtain ⟨w', hw'⟩ := needChannel_of_known (w := counted message w) hknown
    rw [addMessage_eq_ok hw']

end

end Ts
end Mcap

import Mcap.Definitions
import Mcap.IdAllocation

/-! # Calls that succeed

What a call needs to succeed, on a writer to whose stream everything can be written.  The
encoders do not fail (`Coder.Reliable`), no attachment is in progress (`Journal.Open`), and what
is brought along agrees with what is registered.

`Goes` says that a step succeeds and leaves such a writer behind, so steps can be put one after
the other.
-/
namespace Mcap

section
variable {σ : Type} [Encoders σ] {w w' : Writer σ Stream} {j : Journal}

/-- The step succeeds, and the writer takes records afterwards. -/
def Goes {α : Type} (x : Exec (Writer σ Stream) McapError α) (w : Writer σ Stream)
    (Q : α → Writer σ Stream → Prop) : Prop :=
  ∃ a w' j', x w = (.ok a, w') ∧ Shows w' j' ∧ j'.Open ∧ w'.Sound ∧ Q a w'

theorem Goes.bind {α β : Type} {x : Exec (Writer σ Stream) McapError α}
    {f : α → Exec (Writer σ Stream) McapError β} {Q : α → Writer σ Stream → Prop}
    {Q' : β → Writer σ Stream → Prop} (hx : Goes x w Q)
    (hf : ∀ a w' j', Shows w' j' → j'.Open → w'.Sound → Q a w' → Goes (f a) w' Q') :
    Goes (x >>= f) w Q' := by
  obtain ⟨a, w', j', hrun, hshows, ho, hs, hq⟩ := hx
  obtain ⟨b, w'', j'', hrun', hshows', ho', hs', hq'⟩ := hf a w' j' hshows ho hs hq
  exact ⟨b, w'', j'', (Exec.bind_ok hrun).trans hrun', hshows', ho', hs', hq'⟩

theorem Goes.stay {α : Type} {x : Exec (Writer σ Stream) McapError α} {a : α}
    {Q : α → Writer σ Stream → Prop} (hrun : x w = (.ok a, w)) (h : Shows w j) (ho : j.Open)
    (hs : w.Sound) (hq : Q a w) : Goes x w Q := ⟨a, w, j, hrun, h, ho, hs, hq⟩

theorem Goes.of_extended {α : Type} {x : Exec (Writer σ Stream) McapError α} {records : List Record}
    (hr : Coder.Reliable σ) (hs : w.Sound)
    (h : OkOrIo (fun _ w' => ∃ j', Extended w j records w' j') (x w)) :
    Goes x w fun _ w' => w'.ledger = w.ledger ∧ w'.registry = w.registry := by
  obtain ⟨a, w', hrun, j', hext⟩ := h.ok hr
  have hreg := Writer.registry_of_core hext.core
  exact ⟨a, w', j', hrun, hext.shows_, hext.isOpen, hs.of_registry hreg hext.shows_.placed,
    Writer.ledger_of_core hext.core, hreg⟩

namespace Writer

omit [Encoders σ] in
theorem nextSchemaId_of_registry (h : w'.registry = w.registry) :
    w'.nextSchemaId = w.nextSchemaId := by
  simp only [registry, Prod.mk.injEq] at h
  exact h.2.2.1

theorem registerSchemas_goes (hr : Coder.Reliable σ) (h : Shows w j) (ho : j.Open) (hs : w.Sound)
    {schema : Option Schema} (hacc : ∀ s, schema = some s → w.AcceptsSchema s) :
    Goes (registerSchemas schema) w fun _ w' =>
      w'.ledger.channels = w.ledger.channels ∧ w'.nextSchemaId = w.nextSchemaId := by
  cases schema with
  | none => exact .stay rfl h ho hs ⟨rfl, rfl⟩
  | some schema =>
    have hwrite : ∀ {w₁ : Writer σ Stream}, Shows w₁ j → w₁.Sound →
        w₁.ledger = w.ledger.step (schema.content.record schema.id) →
        w₁.nextSchemaId = w.nextSchemaId →
        registerSchema schema w = writeSchema schema.id schema.content w₁ →
        Goes (registerSchemas (some schema)) w fun _ w' =>
          w'.ledger.channels = w.ledger.channels ∧ w'.nextSchemaId = w.nextSchemaId := by
      intro w₁ h₁ hs₁ hledger hnext hrun
      obtain ⟨a, w', j', hok, hshows, ho', hs', hsame, hreg⟩ := Goes.of_extended hr hs₁
        (writeDefinition_shows (record_schema_written schema.content schema.id) trivial
          (fun _ _ hne => by cases hne) h₁ ho)
      refine ⟨a, w', j', hrun.trans hok, hshows, ho', hs', ?_,
        (nextSchemaId_of_registry hreg).trans hnext⟩
      show w'.ledger.channels = _
      rw [hsame, hledger]
      rfl
    rcases hacc schema rfl with hid | ⟨id, hid, hc⟩
    · cases hc : w.canonicalSchemas.getByLeft schema.content with
      | none =>
        obtain ⟨canonicalSchemas, hent, hs', hrun⟩ := registerSchema_new hs hid hc
        exact hwrite (h.withSchema ..) hs' (ledger_withSchema hs hid hent) rfl hrun
      | some c =>
        obtain ⟨hs', hrun⟩ := registerSchema_known hs hid hc
        exact hwrite (h.withSchemaIds _) hs' (ledger_insertSchema hc) rfl hrun
    · have hrun : registerSchema schema w = (.ok (), w) := by
        rw [registerSchema_taken hid hc, if_neg (not_not_intro rfl)]
      exact .stay hrun h ho hs ⟨rfl, rfl⟩

theorem registerChannel_goes (hr : Coder.Reliable σ) (h : Shows w j) (ho : j.Open) (hs : w.Sound)
    {channel : Channel} (hacc : w.AcceptsChannel channel) :
    Goes (registerChannel channel) w fun _ w' =>
      w'.allChannelIds.contains channel.id = true ∧ w'.nextSchemaId = w.nextSchemaId := by
  have hwrite : ∀ {w₁ : Writer σ Stream}, Shows w₁ j → w₁.Sound →
      w₁.ledger = w.ledger.step (channel.content.record channel.id) →
      w₁.nextSchemaId = w.nextSchemaId →
      registerChannel channel w = writeChannel channel.id channel.content w₁ →
      Goes (registerChannel channel) w fun _ w' =>
        w'.allChannelIds.contains channel.id = true ∧ w'.nextSchemaId = w.nextSchemaId := by
    intro w₁ h₁ hs₁ hledger hnext hrun
    obtain ⟨a, w', j', hok, hshows, ho', hs', hsame, hreg⟩ := Goes.of_extended hr hs₁
      (writeDefinition_shows (record_channel_written channel.content channel.id) trivial
        (fun _ _ hne => by cases hne) h₁ ho)
    refine ⟨a, w', j', hrun.trans hok, hshows, ho', hs', ?_,
      (nextSchemaId_of_registry hreg).trans hnext⟩
    have hself : w'.ledger.channels channel.id = some channel.content := by
      rw [hsame, hledger]
      exact Function.update_self ..
    by_contra hne
    have hid := (BTreeMap.contains_eq_false_iff _ _).mp (Bool.eq_false_iff.mpr hne)
    rw [show w'.ledger.channels channel.id = none from contentOf_eq_none hid] at hself
    cases hself
  rcases hacc with hid | ⟨id, hid, hc⟩
  · cases hc : w.canonicalChannels.getByLeft channel.content with
    | none =>
      obtain ⟨canonicalChannels, hent, hs', hrun⟩ := registerChannel_new hs hid hc
      exact hwrite (h.withChannel ..) hs' (ledger_withChannel hs hid hent) rfl hrun
    | some c =>
      obtain ⟨hs', hrun⟩ := registerChannel_known hs hid hc
      exact hwrite (h.withChannelIds _) hs' (ledger_insertChannel hc) rfl hrun
  · have hrun : registerChannel channel w = (.ok (), w) := by
      rw [registerChannel_taken hid hc, if_neg (not_not_intro rfl)]
    exact .stay hrun h ho hs ⟨(BTreeMap.contains_iff _ _).mpr ⟨id, hid⟩, rfl⟩

/-- **A message on a registered channel is written.** -/
theorem writeToKnownChannel_goes (hr : Coder.Reliable σ) (h : Shows w j) (ho : j.Open) (hs : w.Sound)
    {header : MessageHeader} {data : Bytes}
    (hknown : w.allChannelIds.contains header.channelId = true) :
    Goes (writeToKnownChannel header data) w fun _ w' => w'.nextSchemaId = w.nextSchemaId := by
  have h₁ : Shows (countMessage header w) j :=
    h.congr rfl rfl rfl rfl (h.booked.of_fields rfl rfl rfl rfl rfl rfl)
  have hs₁ : (countMessage header w).Sound := ⟨hs.placed, hs.schemas, hs.channels⟩
  have hall : OkOrIo (fun _ w' => ∃ j', Extended (countMessage header w) j
      [.message header data] w' j')
      ((rollChunk >>= fun _ => writeMessageRecord header data) (countMessage header w)) :=
    (rollChunk_shows h₁ ho).bind fun _ w₂ ⟨j₂, hext⟩ =>
      (writeMessageRecord_shows header data hext.shows_ hext.isOpen).mono fun _ w₃ ⟨j₃, hext'⟩ =>
        ⟨j₃, hext.trans hext'⟩
  obtain ⟨a, w', j', hrun, hshows, ho', hs', -, hreg⟩ := Goes.of_extended hr hs₁ hall
  exact ⟨a, w', j', (writeToKnownChannel_run hknown).trans hrun, hshows, ho', hs',
    nextSchemaId_of_registry hreg⟩

/-- **A message that is accepted is written**, with what it brings along. -/
theorem write_goes (hr : Coder.Reliable σ) (h : Shows w j) (ho : j.Open) (hs : w.Sound)
    {message : Message} (hschema : ∀ s, message.channel.schema = some s → w.AcceptsSchema s)
    (hchannel : w.AcceptsChannel message.channel) :
    Goes (write message) w fun _ w' => w'.nextSchemaId = w.nextSchemaId := by
  rw [write_eq]
  refine (registerSchemas_goes hr h ho hs hschema).bind fun _ w₁ j₁ h₁ ho₁ hs₁ ⟨hsame, hnext⟩ => ?_
  have hchannel₁ : w₁.AcceptsChannel message.channel := by
    rw [acceptsChannel_iff hs₁, hsame]
    exact (acceptsChannel_iff hs _).mp hchannel
  refine (registerChannel_goes hr h₁ ho₁ hs₁ hchannel₁).bind fun _ w₂ j₂ h₂ ho₂ hs₂ ⟨hknown, hnext'⟩ =>
    ?_
  rw [← hnext, ← hnext']
  exact writeToKnownChannel_goes hr h₂ ho₂ hs₂ hknown

omit [Encoders σ] in
/-- The counter of schemas wraps only once all ids are taken. -/
def Counted (w : Writer σ Stream) : Prop :=
  w.nextSchemaId = 0 → ∀ id, id ≠ 0 → w.allSchemaIds.contains id = true

/-- **A schema is added** as long as there is an id for it.  It is a new one, and not 0. -/
theorem addSchema_goes (hr : Coder.Reliable σ) (h : Shows w j) (ho : j.Open) (hs : w.Sound)
    (hcount : w.Counted) {name encoding : String} {data : Bytes}
    (hfree : w.canonicalSchemas.getByLeft ⟨name, encoding, data⟩ = none →
      ∃ id, id ≠ 0 ∧ ¬ w.allSchemaIds.contains id = true) :
    Goes (addSchema name encoding data) w fun id w' => w'.Counted ∧
      (w.ledger.schemas id = some ⟨name, encoding, data⟩ ∨
        w.canonicalSchemas.getByLeft ⟨name, encoding, data⟩ = none ∧ id ≠ 0 ∧
          w.allSchemaIds[id]? = none) := by
  cases hc : w.canonicalSchemas.getByLeft ⟨name, encoding, data⟩ with
  | some id =>
    have hknown : w.ledger.schemas id = some ⟨name, encoding, data⟩ := by
      show contentOf _ _ _ = _
      rw [contentOf, hs.schemas.self hc, Option.bind_some, BiMap.getByRight_eq_some_iff.mpr hc]
    exact .stay (addSchema_known hc) h ho hs ⟨hcount, .inl hknown⟩
  | none =>
    obtain ⟨free, hne, hnot⟩ := hfree hc
    have hnext : w.nextSchemaId ≠ 0 := fun hzero => hnot (hcount hzero free hne)
    have hcand : ¬ w.allSchemaIds.contains
        (IdTable.candidate w.allSchemaIds w.nextSchemaId) = true :=
      fun hfull => hnot (hs.schemas.all_taken hfull hne)
    obtain ⟨canonicalSchemas, hent, hs', hrun⟩ := addSchema_new hs hc hcand
    obtain ⟨a, w', j', hok, hshows, ho', hs'', -, hreg⟩ := Goes.of_extended hr hs'
      (writeDefinition_shows (record_schema_written ⟨name, encoding, data⟩
        (IdTable.candidate w.allSchemaIds w.nextSchemaId)) trivial (fun _ _ hne => by cases hne)
        (h.withSchema ..) ho)
    refine ⟨_, w', j', hrun.trans ((Exec.bind_ok hok).trans rfl), hshows, ho', hs'', ?_,
      .inr ⟨rfl, candidate_ne_zero hnext, contains_eq_false_of_ne_true hcand⟩⟩
    -- the ids below the counter are taken, so all are once it wraps
    have hbelow := hs.schemas.at_candidate
    generalize IdTable.candidate w.allSchemaIds w.nextSchemaId = id at *
    simp only [registry, withSchema, Prod.mk.injEq] at hreg
    intro hzero id' hid'
    rw [hreg.2.1]
    have hlast : id.toNat = 65535 := by
      by_contra hne'
      have hlt : id.toNat < 65536 := id.toNat_lt
      have hsucc := toNat_add_one (show id.toNat < 65535 by omega)
      rw [← hreg.2.2.1, hzero] at hsucc
      cases hsucc
    by_cases heq : id = id'
    · rw [heq]
      exact (BTreeMap.contains_iff _ _).mpr ⟨_, BTreeMap.getElem?_insert_self ..⟩
    · have hpos : id'.toNat ≠ 0 := fun hz => hid' (UInt16.toNat_inj.mp hz)
      have hne' : id'.toNat ≠ id.toNat := fun he => heq (UInt16.toNat_inj.mp he).symm
      have hlt : id'.toNat < 65536 := id'.toNat_lt
      exact IdTable.contains_insert _ _ (hbelow.below (by omega) (by omega))

omit [Encoders σ] in
theorem exists_summary (hs : w.Sound) : ∃ schemas channels, w.summarySchemas = some schemas ∧
    w.summaryChannels schemas = some channels := by
  have hcontent : ∀ {C : Type} [BEq C] {canonical : BiMap C UInt16} {ids : BTreeMap UInt16 UInt16},
      (∀ id, ids.contains id = true → (contentOf canonical ids id).isSome) →
      ∀ e ∈ ids.toList, (canonical.getByRight e.2).isSome := by
    intro C _ canonical ids h e he
    have hid := BTreeMap.mem_toList.mp he
    have hsome := h e.1 ((BTreeMap.contains_iff _ _).mpr ⟨_, hid⟩)
    rwa [contentOf, hid, Option.bind_some] at hsome
  obtain ⟨schemas, hschemas⟩ := Option.ne_none_iff_exists'.mp
    (BTreeMap.foldlM_ne_none (f := w.canonicalSchemas.getByRight) (g := SchemaContent.schema)
      (m := ∅) (hcontent fun id => hs.schemas.isSome_contentOf))
  obtain ⟨channels, hchannels⟩ := Option.ne_none_iff_exists'.mp
    (BTreeMap.foldlM_ne_none (f := w.canonicalChannels.getByRight)
      (g := fun id content => ChannelContent.channel id content schemas[content.schemaId]?)
      (m := ∅) (hcontent fun id => hs.channels.isSome_contentOf))
  exact ⟨schemas, channels, hschemas, hchannels⟩

/-- **A writer that takes records can be finished.** -/
theorem finish_ok (hr : Coder.Reliable σ) (h : Shows w j) (ho : j.Open) (hs : w.Sound)
    (order : HashOrder) : ∃ summary w', finish order w = (.ok summary, w') := by
  obtain ⟨u, w₁, hfc, ⟨es, tail⟩, hext, rfl⟩ := (finishChunk_shows h ho).ok hr
  have hs₁ := hs.of_registry (registry_of_core hext.core) hext.shows_.placed
  obtain ⟨schemas, channels, hschemas, hchannels⟩ := exists_summary hs₁
  obtain ⟨c, hc, hholds⟩ := hext.shows_.raw
  have hopts : w₁.options = w.options := options_of_core hext.core
  rw [hopts] at hholds
  have hend : writeEnd order (w₁.summaryWith schemas channels) w.options c = _ :=
    writeEnd_holds hholds (Option.some_ne_none _)
  rw [finish, Exec.bind_ok (Exec.get_run w)]
  simp only [h.notFinished]
  rw [Exec.bind_ok hfc]
  have hsummary : takeSummary w₁ = (.ok (w₁.summaryWith schemas channels), { w₁ with
      channelMessageCounts := ∅
      chunkIndexes := []
      attachmentIndexes := []
      metadataIndexes := [] }) := by
    rw [takeSummary, Exec.bind_ok (Exec.get_run w₁)]
    simp only [hschemas, hchannels]
    rfl
  rw [Exec.bind_ok hsummary, Exec.bind_ok (Exec.modify_run _ _)]
  have hraw : ∀ w₂ : Writer σ Stream, w₂.writer = some (.raw c) →
      onRaw (writeEnd order (w₁.summaryWith schemas channels) w.options) w₂ = (.ok (), { w₂ with
        writer := some (.raw { c with
          inner := Stream.tape (fileBytes w.options es
            (summaryGroups w.options order (w₁.summaryWith schemas channels))) }) }) := by
    intro w₂ hw₂
    simp only [onRaw, hw₂, hend]
  exact ⟨_, _, (Exec.bind_ok (hraw _ (by exact hc))).trans rfl⟩

end Writer

end
end Mcap

import Mcap.WriterModes

/-! # The id registries of the writer

Schemas and channels are registered the same way: every content has a canonical id, the
first it was written under, and every id maps to the canonical id of its content.
`IdTable` is the invariant of such a pair of maps and the counter for new ids, and holds
in every state a writer can reach (`Reaches.sound`), whatever the stream does.
-/
namespace Mcap

/-! ## Tables of ids -/

section
variable {C : Type} [DecidableEq C]

/-- **The invariant of a registry**: the canonical ids are ids of themselves, every id
maps to one of them, and every id from 1 up to the counter is taken. -/
structure IdTable (canonical : BiMap C UInt16) (ids : BTreeMap UInt16 UInt16) (next : UInt16) :
    Prop where
  content : ∀ {id c : UInt16}, ids[id]? = some c → ∃ content, canonical.getByLeft content = some c
  self : ∀ {content : C} {id : UInt16}, canonical.getByLeft content = some id → ids[id]? = some id
  below : ∀ {id : UInt16}, 1 ≤ id.toNat → id.toNat < next.toNat → ids.contains id = true

namespace IdTable
variable {canonical canonical' : BiMap C UInt16} {ids : BTreeMap UInt16 UInt16} {next : UInt16}
  {content : C} {id : UInt16}

theorem empty : IdTable (.empty : BiMap C UInt16) ∅ 1 where
  content h := by rw [Std.ExtTreeMap.getElem?_empty] at h; cases h
  self h := by cases h
  below h h' := by
    have : (1 : UInt16).toNat = 1 := rfl
    omega

theorem contains_insert (id' c : UInt16) (h : ids.contains id' = true) :
    (ids.insert id c).contains id' = true := by
  obtain ⟨v, hv⟩ := (BTreeMap.contains_iff ids id').mp h
  by_cases he : id = id'
  · subst he
    exact (BTreeMap.contains_iff _ _).mpr ⟨c, BTreeMap.getElem?_insert_self ..⟩
  · exact (BTreeMap.contains_iff _ _).mpr ⟨v, by rw [BTreeMap.getElem?_insert_ne _ he, hv]⟩

theorem insert_known (h : IdTable canonical ids next) {c : UInt16}
    (hc : canonical.getByLeft content = some c) (hid : ids[id]? = none) :
    IdTable canonical (ids.insert id c) next where
  content {id' c'} h' := by
    by_cases he : id = id'
    · subst he
      rw [BTreeMap.getElem?_insert_self] at h'
      cases h'
      exact ⟨content, hc⟩
    · rw [BTreeMap.getElem?_insert_ne _ he] at h'
      exact h.content h'
  self {content' id'} h' := by
    have hself := h.self h'
    have he : id ≠ id' := by
      rintro rfl
      rw [hid] at hself
      cases hself
    rw [BTreeMap.getElem?_insert_ne _ he, hself]
  below h₁ h₂ := contains_insert _ _ (h.below h₁ h₂)

theorem getByRight_eq_none (h : IdTable canonical ids next) (hid : ids[id]? = none) :
    canonical.getByRight id = none := by
  cases hr : canonical.getByRight id with
  | none => rfl
  | some content =>
    have hself := h.self (BiMap.getByRight_eq_some_iff.mp hr)
    rw [hid] at hself
    cases hself

/-- **A new id for a new content**: it can be inserted. -/
theorem insert_new (h : IdTable canonical ids next) (hc : canonical.getByLeft content = none)
    (hid : ids[id]? = none) :
    ∃ canonical', canonical.insertNoOverwrite content id = some canonical' ∧
      canonical'.entries = canonical.entries ++ [(content, id)] ∧
      IdTable canonical' (ids.insert id id) next := by
  obtain ⟨canonical', hins, hent⟩ := BiMap.insertNoOverwrite_of_new hc (h.getByRight_eq_none hid)
  refine ⟨canonical', hins, hent, ?_, ?_, ?_⟩
  · intro id' c' h'
    by_cases he : id = id'
    · subst he
      rw [BTreeMap.getElem?_insert_self] at h'
      cases h'
      exact ⟨content, (BiMap.getByLeft_insert hent).mpr (.inr ⟨rfl, rfl⟩)⟩
    · rw [BTreeMap.getElem?_insert_ne _ he] at h'
      obtain ⟨content', hcont⟩ := h.content h'
      exact ⟨content', (BiMap.getByLeft_insert hent).mpr (.inl hcont)⟩
  · intro content' id' h'
    rcases (BiMap.getByLeft_insert hent).mp h' with hold | ⟨rfl, rfl⟩
    · have hself := h.self hold
      have he : id ≠ id' := by
        rintro rfl
        rw [hid] at hself
        cases hself
      rw [BTreeMap.getElem?_insert_ne _ he, hself]
    · exact BTreeMap.getElem?_insert_self ..
  · intro id' h₁ h₂
    exact contains_insert _ _ (h.below h₁ h₂)

theorem first (h : IdTable canonical ids next) {ids' : BTreeMap UInt16 UInt16} {next' : UInt16}
    (h' : IdTable canonical' ids' next')
    (hcanon : ∀ {content : C} {id : UInt16}, canonical.getByLeft content = some id →
      canonical'.getByLeft content = some id)
    (hids : ∀ {id c : UInt16}, ids[id]? = some c → ids'[id]? = some c)
    (hc : canonical.getByLeft content = none) (hc' : canonical'.getByLeft content = some id) :
    ids[id]? = none ∧ ids'[id]? = some id := by
  have hself := h'.self hc'
  refine ⟨?_, hself⟩
  cases hid : ids[id]? with
  | none => rfl
  | some c =>
    -- the content the id had before is the new content
    have heq : c = id := Option.some.inj ((hids hid).symm.trans hself)
    subst heq
    obtain ⟨content', hcont⟩ := h.content hid
    have hr := BiMap.getByRight_eq_some_iff.mpr (hcanon hcont)
    rw [BiMap.getByRight_eq_some_iff.mpr hc'] at hr
    cases hr
    rw [hc] at hcont
    cases hcont

end IdTable
end

/-! ## Free ids -/

theorem toNat_add_one {n : UInt16} (h : n.toNat < 65535) : (n + 1).toNat = n.toNat + 1 := by
  rw [UInt16.toNat_add, show (1 : UInt16).toNat = 1 from rfl, Nat.mod_eq_of_lt (by omega)]

/-- **The search for a free id** ends at an id that is free, unless everything up to
65535 is taken. -/
theorem skipTaken_spec (ids : BTreeMap UInt16 UInt16) (fuel : Nat) (n : UInt16)
    (hfuel : fuel = 65535 - n.toNat) :
    n.toNat ≤ (skipTaken ids fuel n).toNat ∧
      (∀ id : UInt16, n.toNat ≤ id.toNat → id.toNat < (skipTaken ids fuel n).toNat →
        ids.contains id = true) ∧
      (ids.contains (skipTaken ids fuel n) = true → (skipTaken ids fuel n).toNat = 65535) := by
  have hn : n.toNat < 65536 := n.toNat_lt
  induction fuel generalizing n with
  | zero =>
    refine ⟨Nat.le_refl _, fun id h₁ h₂ => ?_, fun _ => ?_⟩
    · rw [skipTaken] at h₂
      omega
    · rw [skipTaken]
      omega
  | succ fuel ih =>
    by_cases hc : ids.contains n = true
    · have hsucc : (n + 1).toNat = n.toNat + 1 := toNat_add_one (by omega)
      obtain ⟨hle, hall, htop⟩ := ih (n + 1) (by omega) (by omega)
      rw [skipTaken, if_pos hc]
      refine ⟨by omega, fun id h₁ h₂ => ?_, htop⟩
      by_cases he : id.toNat = n.toNat
      · rw [UInt16.toNat_inj.mp he]
        exact hc
      · exact hall id (by omega) h₂
    · rw [skipTaken, if_neg hc]
      exact ⟨Nat.le_refl _, fun id h₁ h₂ => by omega, fun h => absurd h hc⟩

namespace IdTable
variable {C : Type} [DecidableEq C] {canonical : BiMap C UInt16} {ids : BTreeMap UInt16 UInt16}
  {next : UInt16}

/-- The id the search ends at. -/
def candidate (ids : BTreeMap UInt16 UInt16) (next : UInt16) : UInt16 :=
  skipTaken ids (65535 - next.toNat) next

theorem at_candidate (h : IdTable canonical ids next) :
    IdTable canonical ids (candidate ids next) where
  content := h.content
  self := h.self
  below {id} h₁ h₂ := by
    obtain ⟨hle, hall, -⟩ := skipTaken_spec ids _ next rfl
    by_cases hlt : id.toNat < next.toNat
    · exact h.below h₁ hlt
    · exact hall id (by omega) h₂

theorem succ (h : IdTable canonical ids next) (hc : ids.contains next = true) :
    IdTable canonical ids (next + 1) where
  content := h.content
  self := h.self
  below {id} h₁ h₂ := by
    have hlt : next.toNat < 65536 := next.toNat_lt
    by_cases htop : next.toNat < 65535
    · rw [toNat_add_one htop] at h₂
      by_cases he : id.toNat = next.toNat
      · rw [UInt16.toNat_inj.mp he]
        exact hc
      · exact h.below h₁ (by omega)
    · -- the counter has wrapped to 0
      have hnext : next = 65535 := UInt16.toNat_inj.mp (by show next.toNat = 65535; omega)
      subst hnext
      exact absurd h₂ (Nat.not_lt_zero _)

theorem all_taken (h : IdTable canonical ids next)
    (hc : ids.contains (candidate ids next) = true) {id : UInt16} (hid : id ≠ 0) :
    ids.contains id = true := by
  obtain ⟨-, -, htop⟩ := skipTaken_spec ids _ next rfl
  have h65535 : (candidate ids next).toNat = 65535 := htop hc
  have hpos : 1 ≤ id.toNat := by
    by_contra hlt
    exact hid (UInt16.toNat_inj.mp (by show id.toNat = 0; omega))
  have hlt : id.toNat < 65536 := id.toNat_lt
  by_cases he : id.toNat = 65535
  · rw [UInt16.toNat_inj.mp (he.trans h65535.symm)]
    exact hc
  · exact h.at_candidate.below hpos (by omega)

end IdTable
/-! ## The registries of a writer -/

namespace Writer
variable {σ : Type} {w w' : Writer σ Stream}

/-- **What holds of every writer**: an open chunk is placed, and the two registries are
in order. -/
structure Sound (w : Writer σ Stream) : Prop where
  placed : w.Placed
  schemas : IdTable w.canonicalSchemas w.allSchemaIds w.nextSchemaId
  channels : IdTable w.canonicalChannels w.allChannelIds w.nextChannelId

/-- The registries. -/
def registry (w : Writer σ Stream) :=
  (w.canonicalSchemas, w.allSchemaIds, w.nextSchemaId,
    w.canonicalChannels, w.allChannelIds, w.nextChannelId)

theorem registry_of_core (h : w'.core = w.core) : w'.registry = w.registry := by
  have hr := congrArg registry h
  exact hr

theorem Sound.of_registry (h : w.Sound) (hr : w'.registry = w.registry) (hp : w'.Placed) :
    w'.Sound := by
  simp only [registry, Prod.mk.injEq] at hr
  obtain ⟨h₁, h₂, h₃, h₄, h₅, h₆⟩ := hr
  refine ⟨hp, ?_, ?_⟩
  · rw [h₁, h₂, h₃]
    exact h.schemas
  · rw [h₄, h₅, h₆]
    exact h.channels

/-- **The registries only grow**: what is registered in `w` is registered the same in
`w'`. -/
structure Extends (w w' : Writer σ Stream) : Prop where
  schemas : ∀ {content : SchemaContent} {id : UInt16},
    w.canonicalSchemas.getByLeft content = some id → w'.canonicalSchemas.getByLeft content = some id
  schemaIds : ∀ {id c : UInt16}, w.allSchemaIds[id]? = some c → w'.allSchemaIds[id]? = some c
  channels : ∀ {content : ChannelContent} {id : UInt16},
    w.canonicalChannels.getByLeft content = some id →
      w'.canonicalChannels.getByLeft content = some id
  channelIds : ∀ {id c : UInt16}, w.allChannelIds[id]? = some c → w'.allChannelIds[id]? = some c

theorem Extends.refl (w : Writer σ Stream) : Extends w w := ⟨id, id, id, id⟩

theorem Extends.trans {w'' : Writer σ Stream} (h : Extends w w') (h' : Extends w' w'') :
    Extends w w'' :=
  ⟨h'.schemas ∘ h.schemas, h'.schemaIds ∘ h.schemaIds, h'.channels ∘ h.channels,
    h'.channelIds ∘ h.channelIds⟩

theorem Extends.of_registry (h : w'.registry = w.registry) : Extends w w' := by
  simp only [registry, Prod.mk.injEq] at h
  obtain ⟨h₁, h₂, -, h₄, h₅, -⟩ := h
  refine ⟨?_, ?_, ?_, ?_⟩
  · rw [h₁]
    exact id
  · rw [h₂]
    exact id
  · rw [h₄]
    exact id
  · rw [h₅]
    exact id

theorem getElem?_insert_new {ids : BTreeMap UInt16 UInt16} {id c : UInt16} (hid : ids[id]? = none)
    {id' c' : UInt16} (h : ids[id']? = some c') : (ids.insert id c)[id']? = some c' := by
  have hne : id ≠ id' := by
    rintro rfl
    rw [hid] at h
    cases h
  rw [BTreeMap.getElem?_insert_ne _ hne, h]

/-! ### Registering -/

/-- A new schema is registered. -/
def withSchema (w : Writer σ Stream) (canonicalSchemas : BiMap SchemaContent UInt16) (id : UInt16)
    (nextSchemaId : UInt16) : Writer σ Stream :=
  { w with canonicalSchemas, allSchemaIds := w.allSchemaIds.insert id id, nextSchemaId }

/-- A new channel is registered. -/
def withChannel (w : Writer σ Stream) (canonicalChannels : BiMap ChannelContent UInt16)
    (id : UInt16) (nextChannelId : UInt16) : Writer σ Stream :=
  { w with canonicalChannels, allChannelIds := w.allChannelIds.insert id id, nextChannelId }

theorem extends_withSchema {canonicalSchemas : BiMap SchemaContent UInt16} {id next : UInt16}
    {content : SchemaContent}
    (hent : canonicalSchemas.entries = w.canonicalSchemas.entries ++ [(content, id)])
    (hid : w.allSchemaIds[id]? = none) : Extends w (w.withSchema canonicalSchemas id next) :=
  ⟨fun h => (BiMap.getByLeft_insert hent).mpr (.inl h), getElem?_insert_new hid,
    fun h => h, fun h => h⟩

theorem extends_withChannel {canonicalChannels : BiMap ChannelContent UInt16} {id next : UInt16}
    {content : ChannelContent}
    (hent : canonicalChannels.entries = w.canonicalChannels.entries ++ [(content, id)])
    (hid : w.allChannelIds[id]? = none) : Extends w (w.withChannel canonicalChannels id next) :=
  ⟨fun h => h, fun h => h, fun h => (BiMap.getByLeft_insert hent).mpr (.inl h),
    getElem?_insert_new hid⟩

theorem contains_eq_false_of_ne_true {ids : BTreeMap UInt16 UInt16} {id : UInt16}
    (h : ¬ ids.contains id = true) : ids[id]? = none :=
  (BTreeMap.contains_eq_false_iff _ _).mp (Bool.eq_false_iff.mpr h)

variable [Encoders σ] {name encoding : String} {data : Bytes}

theorem addSchema_known {id : UInt16}
    (h : w.canonicalSchemas.getByLeft ⟨name, encoding, data⟩ = some id) :
    addSchema name encoding data w = (.ok id, w) := by
  rw [addSchema, Exec.bind_ok (Exec.get_run w)]
  simp only [h]
  rfl

theorem addSchema_full
    (h : w.canonicalSchemas.getByLeft ⟨name, encoding, data⟩ = none)
    (hfull : w.allSchemaIds.contains (IdTable.candidate w.allSchemaIds w.nextSchemaId) = true) :
    addSchema name encoding data w = (.err .tooManySchemas,
      { w with nextSchemaId := IdTable.candidate w.allSchemaIds w.nextSchemaId }) := by
  rw [addSchema, Exec.bind_ok (Exec.get_run w)]
  simp only [h]
  rw [Exec.bind_ok (Exec.modify_run _ w)]
  exact congrFun (if_pos hfull) _

/-- **A new schema**: a free id is registered for it, and the schema is written. -/
theorem addSchema_new (hs : w.Sound)
    (h : w.canonicalSchemas.getByLeft ⟨name, encoding, data⟩ = none)
    (hfree : ¬ w.allSchemaIds.contains (IdTable.candidate w.allSchemaIds w.nextSchemaId) = true) :
    ∃ canonicalSchemas,
      canonicalSchemas.entries = w.canonicalSchemas.entries ++
        [(⟨name, encoding, data⟩, IdTable.candidate w.allSchemaIds w.nextSchemaId)] ∧
      (w.withSchema canonicalSchemas (IdTable.candidate w.allSchemaIds w.nextSchemaId)
        (IdTable.candidate w.allSchemaIds w.nextSchemaId + 1)).Sound ∧
      addSchema name encoding data w =
        (writeSchema (IdTable.candidate w.allSchemaIds w.nextSchemaId) ⟨name, encoding, data⟩ >>=
          fun _ => pure (IdTable.candidate w.allSchemaIds w.nextSchemaId))
        (w.withSchema canonicalSchemas (IdTable.candidate w.allSchemaIds w.nextSchemaId)
          (IdTable.candidate w.allSchemaIds w.nextSchemaId + 1)) := by
  obtain ⟨canonicalSchemas, hins, hent, htab⟩ :=
    hs.schemas.at_candidate.insert_new h (contains_eq_false_of_ne_true hfree)
  refine ⟨canonicalSchemas, hent, ⟨hs.placed, ?_, hs.channels⟩, ?_⟩
  · exact htab.succ ((BTreeMap.contains_iff _ _).mpr ⟨_, BTreeMap.getElem?_insert_self ..⟩)
  · rw [addSchema, Exec.bind_ok (Exec.get_run w)]
    simp only [h]
    rw [Exec.bind_ok (Exec.modify_run _ w)]
    refine (congrFun (if_neg hfree) _).trans ?_
    rw [Exec.bind_ok (Exec.modify_run _ _)]
    unfold IdTable.candidate at hins ⊢
    simp only [hins]
    rfl

/-- **What comes of `add_schema`**: the schema is known, or there is no id left for it, or it gets a new
id and is written. -/
@[elab_as_elim]
theorem addSchema_cases {motive : Res McapError UInt16 × Writer σ Stream → Prop} (hs : w.Sound)
    (known : ∀ id, w.canonicalSchemas.getByLeft ⟨name, encoding, data⟩ = some id →
      motive (.ok id, w))
    (full : w.canonicalSchemas.getByLeft ⟨name, encoding, data⟩ = none →
      w.allSchemaIds.contains (IdTable.candidate w.allSchemaIds w.nextSchemaId) = true →
      motive (.err .tooManySchemas,
        { w with nextSchemaId := IdTable.candidate w.allSchemaIds w.nextSchemaId }))
    (new : ∀ canonicalSchemas id, id = IdTable.candidate w.allSchemaIds w.nextSchemaId →
      w.canonicalSchemas.getByLeft ⟨name, encoding, data⟩ = none → w.allSchemaIds[id]? = none →
      canonicalSchemas.entries = w.canonicalSchemas.entries ++ [(⟨name, encoding, data⟩, id)] →
      (w.withSchema canonicalSchemas id (id + 1)).Sound →
      motive ((writeSchema id ⟨name, encoding, data⟩ >>= fun _ => pure id)
        (w.withSchema canonicalSchemas id (id + 1)))) :
    motive (addSchema name encoding data w) := by
  cases hc : w.canonicalSchemas.getByLeft ⟨name, encoding, data⟩ with
  | some id =>
    rw [addSchema_known hc]
    exact known id hc
  | none =>
    by_cases hfull : w.allSchemaIds.contains
      (IdTable.candidate w.allSchemaIds w.nextSchemaId) = true
    · rw [addSchema_full hc hfull]
      exact full hc hfull
    · obtain ⟨canonicalSchemas, hent, hs', hrun⟩ := addSchema_new hs hc hfull
      rw [hrun]
      exact new canonicalSchemas _ rfl hc (contains_eq_false_of_ne_true hfull) hent hs'

section
variable {schemaId : UInt16} {topic messageEncoding : String} {metadata : BTreeMap String String}

theorem addChannel_known {id : UInt16}
    (h : w.canonicalChannels.getByLeft ⟨topic, schemaId, messageEncoding, metadata⟩ = some id) :
    addChannel schemaId topic messageEncoding metadata w = (.ok id, w) := by
  rw [addChannel, Exec.bind_ok (Exec.get_run w)]
  simp only [h]
  rfl

theorem addChannel_unknownSchema
    (h : w.canonicalChannels.getByLeft ⟨topic, schemaId, messageEncoding, metadata⟩ = none)
    (hu : schemaId ≠ 0 ∧ w.allSchemaIds.contains schemaId = false) :
    addChannel schemaId topic messageEncoding metadata w =
      (.err (.unknownSchema topic schemaId), w) := by
  rw [addChannel, Exec.bind_ok (Exec.get_run w)]
  simp only [h]
  rw [if_pos hu]
  rfl

theorem addChannel_full
    (h : w.canonicalChannels.getByLeft ⟨topic, schemaId, messageEncoding, metadata⟩ = none)
    (hu : ¬ (schemaId ≠ 0 ∧ w.allSchemaIds.contains schemaId = false))
    (hfull : w.allChannelIds.contains (IdTable.candidate w.allChannelIds w.nextChannelId) = true) :
    addChannel schemaId topic messageEncoding metadata w = (.err .tooManyChannels,
      { w with nextChannelId := IdTable.candidate w.allChannelIds w.nextChannelId }) := by
  rw [addChannel, Exec.bind_ok (Exec.get_run w)]
  simp only [h]
  rw [if_neg hu, Exec.bind_ok (Exec.modify_run _ w)]
  exact congrFun (if_pos hfull) _

/-- **A new channel**: a free id is registered for it, and the channel is written. -/
theorem addChannel_new (hs : w.Sound)
    (h : w.canonicalChannels.getByLeft ⟨topic, schemaId, messageEncoding, metadata⟩ = none)
    (hu : ¬ (schemaId ≠ 0 ∧ w.allSchemaIds.contains schemaId = false))
    (hfree : ¬ w.allChannelIds.contains (IdTable.candidate w.allChannelIds w.nextChannelId) =
      true) :
    ∃ canonicalChannels,
      canonicalChannels.entries = w.canonicalChannels.entries ++
        [(⟨topic, schemaId, messageEncoding, metadata⟩,
          IdTable.candidate w.allChannelIds w.nextChannelId)] ∧
      (w.withChannel canonicalChannels (IdTable.candidate w.allChannelIds w.nextChannelId)
        (IdTable.candidate w.allChannelIds w.nextChannelId + 1)).Sound ∧
      addChannel schemaId topic messageEncoding metadata w =
        (writeChannel (IdTable.candidate w.allChannelIds w.nextChannelId)
            ⟨topic, schemaId, messageEncoding, metadata⟩ >>=
          fun _ => pure (IdTable.candidate w.allChannelIds w.nextChannelId))
        (w.withChannel canonicalChannels (IdTable.candidate w.allChannelIds w.nextChannelId)
          (IdTable.candidate w.allChannelIds w.nextChannelId + 1)) := by
  obtain ⟨canonicalChannels, hins, hent, htab⟩ :=
    hs.channels.at_candidate.insert_new h (contains_eq_false_of_ne_true hfree)
  refine ⟨canonicalChannels, hent, ⟨hs.placed, hs.schemas, ?_⟩, ?_⟩
  · exact htab.succ ((BTreeMap.contains_iff _ _).mpr ⟨_, BTreeMap.getElem?_insert_self ..⟩)
  · rw [addChannel, Exec.bind_ok (Exec.get_run w)]
    simp only [h]
    rw [if_neg hu, Exec.bind_ok (Exec.modify_run _ w)]
    refine (congrFun (if_neg hfree) _).trans ?_
    rw [Exec.bind_ok (Exec.modify_run _ _)]
    unfold IdTable.candidate at hins ⊢
    simp only [hins]
    rfl

/-- **What comes of `add_channel`**: as for a schema, and the schema of the channel may be unknown. -/
@[elab_as_elim]
theorem addChannel_cases {motive : Res McapError UInt16 × Writer σ Stream → Prop} (hs : w.Sound)
    (known : ∀ id, w.canonicalChannels.getByLeft ⟨topic, schemaId, messageEncoding, metadata⟩ =
      some id → motive (.ok id, w))
    (unknownSchema : w.canonicalChannels.getByLeft ⟨topic, schemaId, messageEncoding, metadata⟩ =
      none → schemaId ≠ 0 ∧ w.allSchemaIds.contains schemaId = false →
      motive (.err (.unknownSchema topic schemaId), w))
    (full : w.canonicalChannels.getByLeft ⟨topic, schemaId, messageEncoding, metadata⟩ = none →
      w.allChannelIds.contains (IdTable.candidate w.allChannelIds w.nextChannelId) = true →
      motive (.err .tooManyChannels,
        { w with nextChannelId := IdTable.candidate w.allChannelIds w.nextChannelId }))
    (new : ∀ canonicalChannels id, id = IdTable.candidate w.allChannelIds w.nextChannelId →
      w.canonicalChannels.getByLeft ⟨topic, schemaId, messageEncoding, metadata⟩ = none →
      (schemaId = 0 ∨ w.allSchemaIds.contains schemaId = true) → w.allChannelIds[id]? = none →
      canonicalChannels.entries =
        w.canonicalChannels.entries ++ [(⟨topic, schemaId, messageEncoding, metadata⟩, id)] →
      (w.withChannel canonicalChannels id (id + 1)).Sound →
      motive ((writeChannel id ⟨topic, schemaId, messageEncoding, metadata⟩ >>= fun _ => pure id)
        (w.withChannel canonicalChannels id (id + 1)))) :
    motive (addChannel schemaId topic messageEncoding metadata w) := by
  cases hc : w.canonicalChannels.getByLeft ⟨topic, schemaId, messageEncoding, metadata⟩ with
  | some id =>
    rw [addChannel_known hc]
    exact known id hc
  | none =>
    by_cases hunk : schemaId ≠ 0 ∧ w.allSchemaIds.contains schemaId = false
    · rw [addChannel_unknownSchema hc hunk]
      exact unknownSchema hc hunk
    · by_cases hfull : w.allChannelIds.contains
        (IdTable.candidate w.allChannelIds w.nextChannelId) = true
      · rw [addChannel_full hc hunk hfull]
        exact full hc hfull
      · obtain ⟨canonicalChannels, hent, hs', hrun⟩ := addChannel_new hs hc hunk hfull
        rw [hrun]
        have hschema : schemaId = 0 ∨ w.allSchemaIds.contains schemaId = true := by
          by_cases h0 : schemaId = 0
          · exact .inl h0
          · exact .inr (by simpa [h0] using hunk)
        exact new canonicalChannels _ rfl hc hschema (contains_eq_false_of_ne_true hfull) hent hs'

end

/-! ### Registering by `write` -/

section
variable {schema : Schema} {other : UInt16}

theorem registerSchema_panic (hid : w.allSchemaIds[schema.id]? = some other)
    (hc : w.canonicalSchemas.getByLeft schema.content = none) :
    registerSchema schema w = (.panic, w) := by
  rw [registerSchema, Exec.bind_ok (Exec.get_run w)]
  simp only [hid, hc]
  rfl

theorem registerSchema_taken {id : UInt16} (hid : w.allSchemaIds[schema.id]? = some other)
    (hc : w.canonicalSchemas.getByLeft schema.content = some id) :
    registerSchema schema w =
      (if other ≠ id then .err (.conflictingSchemas schema.name) else .ok (), w) := by
  rw [registerSchema, Exec.bind_ok (Exec.get_run w)]
  simp only [hid, hc]
  split <;> rfl

theorem registerSchema_known {id : UInt16} (hs : w.Sound)
    (hid : w.allSchemaIds[schema.id]? = none)
    (hc : w.canonicalSchemas.getByLeft schema.content = some id) :
    Sound { w with allSchemaIds := w.allSchemaIds.insert schema.id id } ∧
      registerSchema schema w = writeSchema schema.id schema.content
        { w with allSchemaIds := w.allSchemaIds.insert schema.id id } := by
  refine ⟨⟨hs.placed, hs.schemas.insert_known hc hid, hs.channels⟩, ?_⟩
  rw [registerSchema, Exec.bind_ok (Exec.get_run w)]
  simp only [hid, hc]
  rw [Exec.bind_ok (Exec.modify_run _ w)]

theorem registerSchema_new (hs : w.Sound) (hid : w.allSchemaIds[schema.id]? = none)
    (hc : w.canonicalSchemas.getByLeft schema.content = none) :
    ∃ canonicalSchemas,
      canonicalSchemas.entries = w.canonicalSchemas.entries ++ [(schema.content, schema.id)] ∧
      (w.withSchema canonicalSchemas schema.id w.nextSchemaId).Sound ∧
      registerSchema schema w = writeSchema schema.id schema.content
        (w.withSchema canonicalSchemas schema.id w.nextSchemaId) := by
  obtain ⟨canonicalSchemas, hins, hent, htab⟩ := hs.schemas.insert_new hc hid
  refine ⟨canonicalSchemas, hent, ⟨hs.placed, htab, hs.channels⟩, ?_⟩
  rw [registerSchema, Exec.bind_ok (Exec.get_run w)]
  simp only [hid, hc, hins]
  rw [Exec.bind_ok (Exec.modify_run _ w)]
  rfl

/-- **What comes of a schema that is written**: its id is new, for a known content or for a new one, or
the id is taken. -/
@[elab_as_elim]
theorem registerSchema_cases {motive : Res McapError Unit × Writer σ Stream → Prop} (hs : w.Sound)
    (new : ∀ canonicalSchemas, w.allSchemaIds[schema.id]? = none →
      canonicalSchemas.entries = w.canonicalSchemas.entries ++ [(schema.content, schema.id)] →
      (w.withSchema canonicalSchemas schema.id w.nextSchemaId).Sound →
      motive (writeSchema schema.id schema.content
        (w.withSchema canonicalSchemas schema.id w.nextSchemaId)))
    (known : ∀ id, w.allSchemaIds[schema.id]? = none →
      w.canonicalSchemas.getByLeft schema.content = some id →
      Sound { w with allSchemaIds := w.allSchemaIds.insert schema.id id } →
      motive (writeSchema schema.id schema.content
        { w with allSchemaIds := w.allSchemaIds.insert schema.id id }))
    (panic : motive (.panic, w))
    (taken : ∀ other id, w.allSchemaIds[schema.id]? = some other →
      w.canonicalSchemas.getByLeft schema.content = some id →
      motive (if other ≠ id then .err (.conflictingSchemas schema.name) else .ok (), w)) :
    motive (registerSchema schema w) := by
  cases hid : w.allSchemaIds[schema.id]? <;>
    cases hc : w.canonicalSchemas.getByLeft schema.content
  case none.none =>
    obtain ⟨canonicalSchemas, hent, hs', hrun⟩ := registerSchema_new hs hid hc
    rw [hrun]
    exact new canonicalSchemas hid hent hs'
  case none.some id =>
    obtain ⟨hs', hrun⟩ := registerSchema_known hs hid hc
    rw [hrun]
    exact known id hid hc hs'
  case some.none other =>
    rw [registerSchema_panic hid hc]
    exact panic
  case some.some other id =>
    rw [registerSchema_taken hid hc]
    exact taken other id hid hc

end

section
variable {channel : Channel} {other : UInt16}

theorem registerChannel_panic (hid : w.allChannelIds[channel.id]? = some other)
    (hc : w.canonicalChannels.getByLeft channel.content = none) :
    registerChannel channel w = (.panic, w) := by
  rw [registerChannel, Exec.bind_ok (Exec.get_run w)]
  simp only [hid, hc]
  rfl

theorem registerChannel_taken {id : UInt16} (hid : w.allChannelIds[channel.id]? = some other)
    (hc : w.canonicalChannels.getByLeft channel.content = some id) :
    registerChannel channel w =
      (if id ≠ other then .err (.conflictingChannels channel.topic) else .ok (), w) := by
  rw [registerChannel, Exec.bind_ok (Exec.get_run w)]
  simp only [hid, hc]
  split <;> rfl

theorem registerChannel_known {id : UInt16} (hs : w.Sound)
    (hid : w.allChannelIds[channel.id]? = none)
    (hc : w.canonicalChannels.getByLeft channel.content = some id) :
    Sound { w with allChannelIds := w.allChannelIds.insert channel.id id } ∧
      registerChannel channel w = writeChannel channel.id channel.content
        { w with allChannelIds := w.allChannelIds.insert channel.id id } := by
  refine ⟨⟨hs.placed, hs.schemas, hs.channels.insert_known hc hid⟩, ?_⟩
  rw [registerChannel, Exec.bind_ok (Exec.get_run w)]
  simp only [hid, hc]
  rw [Exec.bind_ok (Exec.modify_run _ w)]

theorem registerChannel_new (hs : w.Sound) (hid : w.allChannelIds[channel.id]? = none)
    (hc : w.canonicalChannels.getByLeft channel.content = none) :
    ∃ canonicalChannels,
      canonicalChannels.entries = w.canonicalChannels.entries ++ [(channel.content, channel.id)] ∧
      (w.withChannel canonicalChannels channel.id w.nextChannelId).Sound ∧
      registerChannel channel w = writeChannel channel.id channel.content
        (w.withChannel canonicalChannels channel.id w.nextChannelId) := by
  obtain ⟨canonicalChannels, hins, hent, htab⟩ := hs.channels.insert_new hc hid
  refine ⟨canonicalChannels, hent, ⟨hs.placed, hs.schemas, htab⟩, ?_⟩
  rw [registerChannel, Exec.bind_ok (Exec.get_run w)]
  simp only [hid, hc, hins]
  rw [Exec.bind_ok (Exec.modify_run _ w)]
  rfl

/-- **What comes of a channel that is written**: its id is new, for a known content or for a new one, or
the id is taken. -/
@[elab_as_elim]
theorem registerChannel_cases {motive : Res McapError Unit × Writer σ Stream → Prop} (hs : w.Sound)
    (new : ∀ canonicalChannels, w.allChannelIds[channel.id]? = none →
      canonicalChannels.entries = w.canonicalChannels.entries ++ [(channel.content, channel.id)] →
      (w.withChannel canonicalChannels channel.id w.nextChannelId).Sound →
      motive (writeChannel channel.id channel.content
        (w.withChannel canonicalChannels channel.id w.nextChannelId)))
    (known : ∀ id, w.allChannelIds[channel.id]? = none →
      w.canonicalChannels.getByLeft channel.content = some id →
      Sound { w with allChannelIds := w.allChannelIds.insert channel.id id } →
      motive (writeChannel channel.id channel.content
        { w with allChannelIds := w.allChannelIds.insert channel.id id }))
    (panic : motive (.panic, w))
    (taken : ∀ other id, w.allChannelIds[channel.id]? = some other →
      w.canonicalChannels.getByLeft channel.content = some id →
      motive (if id ≠ other then .err (.conflictingChannels channel.topic) else .ok (), w)) :
    motive (registerChannel channel w) := by
  cases hid : w.allChannelIds[channel.id]? <;>
    cases hc : w.canonicalChannels.getByLeft channel.content
  case none.none =>
    obtain ⟨canonicalChannels, hent, hs', hrun⟩ := registerChannel_new hs hid hc
    rw [hrun]
    exact new canonicalChannels hid hent hs'
  case none.some id =>
    obtain ⟨hs', hrun⟩ := registerChannel_known hs hid hc
    rw [hrun]
    exact known id hid hc hs'
  case some.none other =>
    rw [registerChannel_panic hid hc]
    exact panic
  case some.some other id =>
    rw [registerChannel_taken hid hc]
    exact taken other id hid hc

end

end Writer
end Mcap
